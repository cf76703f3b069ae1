/-!
# Arithmetic within 64 bits

Index arithmetic is exact. A result is accepted only if it fits into a signed 64-bit word;
otherwise the step that wanted it is given up. `wordOf?` is that test.
-/

namespace TensorLowering

/-- The number fits into a signed 64-bit word. -/
abbrev InWord (n : Int) : Prop := -9223372036854775808 ≤ n ∧ n < 9223372036854775808

/-- The number itself, if it fits into a signed 64-bit word. -/
def wordOf? (n : Int) : Option Int := if InWord n then some n else none

/-- A number is kept as it is, if it fits into a word. -/
theorem wordOf?_eq_some_iff {n m : Int} : wordOf? n = some m ↔ InWord n ∧ n = m := by
  unfold wordOf?
  split
  · next h => exact ⟨fun e => ⟨h, Option.some.inj e⟩, fun e => congrArg some e.2⟩
  · next h => exact ⟨fun e => absurd e (by simp), fun e => absurd e.1 h⟩

end TensorLowering
