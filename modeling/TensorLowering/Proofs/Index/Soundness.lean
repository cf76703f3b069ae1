import TensorLowering.Proofs.Index.Value

/-!
# Simplification keeps the values of an expression

Under an assignment that agrees with what is known about variables, every value an expression may
take is also a value its simplified form may take (`IndexExpr.simplify_sound`). The converse fails
on purpose: `simplify` turns `1 / 0 == 1 / 0`, which has no value, into `true`.

Logical operators give one or zero, and `simplify` replaces `true && e` by `e`. That is right only
where `e` is a truth value itself, so the operands of conjunctions and disjunctions are required
to be truth values or immediates (`IndexExpr.LogicalOperands`).

There is one lemma for each step of the simplifier, about operands that are already simplified;
the theorem is the induction over the expression that puts them together.
-/

namespace TensorLowering

/-- The assignment gives every variable the value it is known to have. -/
def Bindings.AgreesWith (known : Bindings) (ρ : SymVar → Int) : Prop :=
  ∀ v n, known.value? v = some n → ρ v = n

namespace Bindings.AgreesWith

variable {ρ : SymVar → Int} {known : Bindings}

theorem nil : AgreesWith [] ρ := fun _ _ h => nomatch h

/-- What is known may be extended by the value that the variable has. -/
theorem bind (h : known.AgreesWith ρ) (v : SymVar) : (known.bind v (ρ v)).AgreesWith ρ := by
  intro w n hn
  by_cases hwv : w = v
  · subst hwv
    simpa [Bindings.bind, Bindings.value?] using hn
  · have hrest : known.value? w = some n := by
      simpa [Bindings.bind, Bindings.value?, List.lookup_cons, beq_false_of_ne hwv] using hn
    exact h w n hrest

end Bindings.AgreesWith

namespace IndexExpr

/-- The expression may stand below a logical operator: it is an immediate, a comparison, a logical
expression, or a variable that stands for zero or one. -/
def LogicalOperand (ρ : SymVar → Int) : IndexExpr → Prop
  | .imm .. | .compare .. | .and .. | .or .. | .not _ => True
  | .var v => ρ v = 0 ∨ ρ v = 1
  | .unknown | .arith .. => False

/-- All operands of conjunctions and disjunctions in the expression may stand there. -/
def LogicalOperands (ρ : SymVar → Int) : IndexExpr → Prop
  | .imm .. | .var _ | .unknown => True
  | .arith _ lhs rhs | .compare _ lhs rhs => lhs.LogicalOperands ρ ∧ rhs.LogicalOperands ρ
  | .and lhs rhs | .or lhs rhs =>
    (lhs.LogicalOperand ρ ∧ rhs.LogicalOperand ρ) ∧ lhs.LogicalOperands ρ ∧ rhs.LogicalOperands ρ
  | .not operand => operand.LogicalOperands ρ

variable {ρ : SymVar → Int} {known : Bindings} {e lhs rhs operand : IndexExpr} {a b n : Int}

/-- An operand of a logical operator is a truth value unless it simplifies to a number. -/
private theorem LogicalOperand.eq_zero_or_one (he : e.LogicalOperand ρ) (hn : e.Takes ρ n)
    (hvalue : (e.simplify known).value? = none) : n = 0 ∨ n = 1 := by
  cases hn with
  | imm n t => cases hvalue
  | var v => exact he
  | unknown n => exact he.elim
  | arith op hl hr hn => exact he.elim
  | compare | and | or | not => exact truth_eq_zero_or_one _

/-! ### The steps of the simplifier -/

private theorem Takes.linearize (h : e.Takes ρ n) : e.linearize.Takes ρ n := by
  cases hform : LinearForm.ofExpr? e with
  | none => simpa [IndexExpr.linearize, hform] using h
  | some form =>
    rw [LinearForm.eq_value_of_takes hform h]
    simpa [IndexExpr.linearize, hform] using form.takes_toExpr

private theorem Takes.simplifyArith {op : ArithOp} (hl : lhs.Takes ρ a) (hr : rhs.Takes ρ b)
    (hn : op.result? a b = some n) : (simplifyArith op lhs rhs).Takes ρ n := by
  cases hfold : foldArith? op lhs rhs with
  | none =>
    simp only [IndexExpr.simplifyArith, hfold]
    exact (Takes.arith op hl hr hn).linearize
  | some m =>
    obtain ⟨a', ha, hfold'⟩ := Option.bind_eq_some_iff.mp hfold
    obtain ⟨b', hb, heval⟩ := Option.bind_eq_some_iff.mp hfold'
    obtain rfl := hl.eq_of_value? ha
    obtain rfl := hr.eq_of_value? hb
    have hm : op.result? a b = some m := ArithOp.result?_of_eval? heval
    obtain rfl : n = m := Option.some.inj (hn.symm.trans hm)
    simp only [IndexExpr.simplifyArith, hfold]
    exact .imm n _

/-- Sides whose linear forms differ by a constant differ by it in value. -/
private theorem sub_eq_of_constantDifference? {d : Int} (h : constantDifference? lhs rhs = some d)
    (hl : lhs.Takes ρ a) (hr : rhs.Takes ρ b) : a - b = d := by
  obtain ⟨l, hl', h⟩ := Option.bind_eq_some_iff.mp h
  obtain ⟨r, hr', h⟩ := Option.bind_eq_some_iff.mp h
  obtain ⟨difference, hadd, hconst⟩ := Option.bind_eq_some_iff.mp h
  have hvalue : difference.value ρ = l.value ρ + -1 * r.value ρ := LinearForm.value_add? hadd
  rw [LinearForm.value_of_const? hconst] at hvalue
  rw [LinearForm.eq_value_of_takes hl' hl, LinearForm.eq_value_of_takes hr' hr]
  omega

/-- Operands with no unknown dimension may be compared by what they say; an unknown dimension
need not be equal to another one that is written alike. -/
private theorem Takes.simplifyCompare (op : CompareOp) (hl : lhs.Takes ρ a) (hr : rhs.Takes ρ b) :
    (simplifyCompare op lhs rhs).Takes ρ (truth (op.States a b)) := by
  have hcompare : (IndexExpr.compare op lhs rhs).Takes ρ (truth (op.States a b)) :=
    .compare op hl hr
  unfold IndexExpr.simplifyCompare
  split
  · next a' b' ha hb =>
    obtain rfl := hl.eq_of_value? ha
    obtain rfl := hr.eq_of_value? hb
    exact takes_ofBool (op.holds_iff a b)
  · split
    · exact hcompare
    · next hknown =>
      split
      · next d hd =>
        have hdifference : a - b = d := sub_eq_of_constantDifference? hd hl hr
        apply takes_ofBool
        rw [op.holds_iff, ← hdifference, op.states_sub]
      · split
        · next heq =>
          subst heq
          have hab : a = b := by
            apply hl.unique _ hr
            simpa using hknown
          apply takes_ofBool
          rw [op.holds_iff, ← op.states_sub a b, hab, sub_self]
        · exact hcompare

private theorem Takes.simplifyAnd (hl : lhs.Takes ρ a) (hr : rhs.Takes ρ b)
    (ha : lhs.value? = none → a = 0 ∨ a = 1) (hb : rhs.value? = none → b = 0 ∨ b = 1) :
    (simplifyAnd lhs rhs).Takes ρ (truth (a ≠ 0 ∧ b ≠ 0)) := by
  unfold IndexExpr.simplifyAnd
  split
  · next a' b' hla hrb =>
    obtain rfl := hl.eq_of_value? hla
    obtain rfl := hr.eq_of_value? hrb
    exact takes_ofBool (by simp)
  · next a' hla hrb =>
    obtain rfl := hl.eq_of_value? hla
    split
    · next hzero => exact takes_ofBool (by simp [hzero])
    · next hnonzero =>
      -- a true operand leaves the other one, which is a truth value
      rw [truth_congr (and_iff_right hnonzero), truth_ne_zero (hb hrb)]
      exact hr
  · next b' hla hrb =>
    obtain rfl := hr.eq_of_value? hrb
    split
    · next hzero => exact takes_ofBool (by simp [hzero])
    · next hnonzero =>
      rw [truth_congr (and_iff_left hnonzero), truth_ne_zero (ha hla)]
      exact hl
  · exact .and hl hr

private theorem Takes.simplifyOr (hl : lhs.Takes ρ a) (hr : rhs.Takes ρ b)
    (ha : lhs.value? = none → a = 0 ∨ a = 1) (hb : rhs.value? = none → b = 0 ∨ b = 1) :
    (simplifyOr lhs rhs).Takes ρ (truth (a ≠ 0 ∨ b ≠ 0)) := by
  unfold IndexExpr.simplifyOr
  split
  · next a' b' hla hrb =>
    obtain rfl := hl.eq_of_value? hla
    obtain rfl := hr.eq_of_value? hrb
    exact takes_ofBool (by simp)
  · next a' hla hrb =>
    obtain rfl := hl.eq_of_value? hla
    split
    · next hzero =>
      -- a false operand leaves the other one, which is a truth value
      rw [truth_congr (or_iff_right (not_not_intro hzero)), truth_ne_zero (hb hrb)]
      exact hr
    · next hnonzero => exact takes_ofBool (by simp [hnonzero])
  · next b' hla hrb =>
    obtain rfl := hr.eq_of_value? hrb
    split
    · next hzero =>
      rw [truth_congr (or_iff_left (not_not_intro hzero)), truth_ne_zero (ha hla)]
      exact hl
    · next hnonzero => exact takes_ofBool (by simp [hnonzero])
  · exact .or hl hr

private theorem Takes.simplifyNot (h : operand.Takes ρ a) :
    (simplifyNot operand).Takes ρ (truth (a = 0)) := by
  unfold IndexExpr.simplifyNot
  split
  · next n hn =>
    obtain rfl := h.eq_of_value? hn
    exact takes_ofBool (by simp)
  · exact .not h

/-! ### The whole simplifier -/

/-- An expression takes its value also when it is simplified. -/
theorem Takes.simplify (hρ : known.AgreesWith ρ) (he : e.LogicalOperands ρ) (h : e.Takes ρ n) :
    (e.simplify known).Takes ρ n := by
  induction h with
  | imm n t => exact .imm n t
  | var v =>
    cases hv : known.value? v with
    | some n =>
      rw [IndexExpr.simplify, hv, hρ v n hv]
      exact .imm n v.dtype
    | none =>
      rw [IndexExpr.simplify, hv]
      exact .var v
  | unknown n => exact .unknown n
  | arith op _ _ hn ihl ihr => exact (ihl he.1).simplifyArith (ihr he.2) hn
  | compare op _ _ ihl ihr => exact (ihl he.1).simplifyCompare op (ihr he.2)
  | and hl hr ihl ihr =>
    obtain ⟨⟨hlhs, hrhs⟩, hel, her⟩ := he
    exact (ihl hel).simplifyAnd (ihr her) (hlhs.eq_zero_or_one hl) (hrhs.eq_zero_or_one hr)
  | or hl hr ihl ihr =>
    obtain ⟨⟨hlhs, hrhs⟩, hel, her⟩ := he
    exact (ihl hel).simplifyOr (ihr her) (hlhs.eq_zero_or_one hl) (hrhs.eq_zero_or_one hr)
  | not _ ih => exact (ih he).simplifyNot

/-- **Simplification is sound.** Under an assignment that agrees with the known values, every value
of an expression is a value of its simplified form. So an expression that is proved takes no value
but those other than zero, whatever its unknown dimensions are. -/
theorem simplify_sound (known : Bindings) (e : IndexExpr) (ρ : SymVar → Int)
    (hρ : known.AgreesWith ρ) (he : e.LogicalOperands ρ) :
    (∀ n, e.Takes ρ n → (e.simplify known).Takes ρ n) ∧
      (e.proves known = true → ∀ n, e.Takes ρ n → n ≠ 0) := by
  constructor
  · intro n hn
    exact hn.simplify hρ he
  · intro hproves n hn
    simp only [proves] at hproves
    split at hproves
    · next m hm =>
      have hnm : n = m := (hn.simplify hρ he).eq_of_value? hm
      rw [hnm]
      simpa using hproves
    · cases hproves

/-- With `m` known to be `3`, the guard `(n * 2 - n == n && m < 4) || ? == 0` holds for every
extent of the unknown dimension, here where `n` is `5`. -/
theorem simplify_sound_guard :
    let n : SymVar := ⟨0, "n", .int64⟩
    let m : SymVar := ⟨1, "m", .int64⟩
    let known : Bindings := Bindings.bind [] m 3
    let ρ : SymVar → Int := fun v => if v = m then 3 else 5
    let cancels := IndexExpr.compare .eq (.arith .sub (.arith .mul (.var n) (ofInt 2)) (.var n))
      (.var n)
    let guard := IndexExpr.or (.and cancels (.compare .lt (.var m) (ofInt 4)))
      (.compare .eq .unknown (ofInt 0))
    known.AgreesWith ρ ∧ guard.LogicalOperands ρ ∧ guard.proves known = true ∧ guard.Takes ρ 1 ∧
      ∀ k, guard.Takes ρ k → k ≠ 0 := by
  intro n m known ρ cancels guard
  have hρ : (Bindings.bind [] m (ρ m)).AgreesWith ρ := Bindings.AgreesWith.nil.bind m
  have hguard : guard.LogicalOperands ρ := by
    simp [guard, cancels, LogicalOperands, LogicalOperand, ofInt]
  have hproves : guard.proves known = true := by decide
  have htakes : guard.Takes ρ 1 :=
    .or (.and
      (.compare .eq (.arith .sub (.arith .mul (.var n) (.imm 2 _) rfl) (.var n) rfl) (.var n))
      (.compare .lt (.var m) (.imm 4 _))) (.compare .eq (.unknown 0) (.imm 0 _))
  exact ⟨hρ, hguard, hproves, htakes, (simplify_sound known guard ρ hρ hguard).2 hproves⟩

end IndexExpr

end TensorLowering
