import TensorLowering.Index.Simplify
import Mathlib.Algebra.BigOperators.Group.List.Basic
import Mathlib.Tactic.Ring

/-!
# What index expressions stand for

An index expression is read over the integers, without any bound. Division and remainder round
down and have no result for the divisor zero, comparisons and logical operators give one or zero,
and every occurrence of an unknown dimension stands for an integer of its own choice. So under an
assignment `ρ` of integers to the variables an expression has several possible values, or none:
`IndexExpr.Takes ρ e n` says that `n` is one of them.

The arithmetic of `ArithOp.eval?` agrees with this exact arithmetic wherever it gives a result
(`ArithOp.result?_of_eval?`), and the operations on linear forms compute the form of the exact
result wherever they give one. A linear form is deterministic: an expression that has one takes no
value but that of the form (`LinearForm.eq_value_of_takes`), and the form written out takes it
(`LinearForm.takes_toExpr`).
-/

namespace TensorLowering

/-! ### Exact arithmetic -/

/-- One if the statement holds, zero if it does not. -/
def truth (p : Prop) [Decidable p] : Int := if p then 1 else 0

/-- Propositions that are equivalent have one truth value. -/
theorem truth_congr {p q : Prop} [Decidable p] [Decidable q] (h : p ↔ q) : truth p = truth q :=
  if_congr h rfl rfl

private theorem truth_of {p : Prop} [Decidable p] (h : p) : truth p = 1 := if_pos h

private theorem truth_of_not {p : Prop} [Decidable p] (h : ¬p) : truth p = 0 := if_neg h

/-- A truth value says itself whether it is not zero. -/
theorem truth_ne_zero {n : Int} (h : n = 0 ∨ n = 1) : truth (n ≠ 0) = n := by
  obtain rfl | rfl := h
  · exact truth_of_not (by simp)
  · exact truth_of (by simp)

/-- There are two truth values. -/
theorem truth_eq_zero_or_one (p : Prop) [Decidable p] : truth p = 0 ∨ truth p = 1 := by
  by_cases h : p
  · exact Or.inr (truth_of h)
  · exact Or.inl (truth_of_not h)

/-- The exact result of an operator on two integers. -/
def ArithOp.result? (op : ArithOp) (a b : Int) : Option Int :=
  match op with
  | .add => some (a + b)
  | .sub => some (a - b)
  | .mul => some (a * b)
  | .floorDiv => if b = 0 then none else some (a.fdiv b)
  | .floorMod => if b = 0 then none else some (a.fmod b)
  | .min => some (Min.min a b)
  | .max => some (Max.max a b)

/-- The statement a comparison makes about two integers. -/
def CompareOp.States (op : CompareOp) (a b : Int) : Prop :=
  match op with
  | .eq => a = b
  | .ne => a ≠ b
  | .lt => a < b
  | .le => a ≤ b
  | .gt => b < a
  | .ge => b ≤ a

instance (op : CompareOp) (a b : Int) : Decidable (op.States a b) :=
  match op with
  | .eq => inferInstanceAs (Decidable (a = b))
  | .ne => inferInstanceAs (Decidable (a ≠ b))
  | .lt => inferInstanceAs (Decidable (a < b))
  | .le => inferInstanceAs (Decidable (a ≤ b))
  | .gt => inferInstanceAs (Decidable (b < a))
  | .ge => inferInstanceAs (Decidable (b ≤ a))

/-- A result within words is the exact result. -/
theorem ArithOp.result?_of_eval? {op : ArithOp} {a b n : Int} (h : op.eval? a b = some n) :
    op.result? a b = some n := by
  cases op with
  | add | sub | mul =>
    obtain ⟨-, hn⟩ := wordOf?_eq_some_iff.mp h
    exact congrArg some hn
  | floorDiv | floorMod =>
    simp only [eval?] at h
    split at h
    · cases h
    · next hguard => rw [result?, if_neg (not_or.mp hguard).1, h]
  | min | max => exact h

/-- A comparison holds just if what it states is true. -/
theorem CompareOp.holds_iff (op : CompareOp) (a b : Int) : op.holds a b = true ↔ op.States a b := by
  cases op <;> simp [holds, States]

/-- A comparison is about the difference of its sides. -/
theorem CompareOp.states_sub (op : CompareOp) (a b : Int) :
    op.States (a - b) 0 ↔ op.States a b := by
  cases op <;> simp only [States] <;> omega

/-! ### Values of expressions -/

/-- The integers an expression may stand for when the variables stand for those of `ρ`. -/
inductive IndexExpr.Takes (ρ : SymVar → Int) : IndexExpr → Int → Prop where
  | imm (n : Int) (t : DataType) : Takes ρ (.imm n t) n
  | var (v : SymVar) : Takes ρ (.var v) (ρ v)
  | unknown (n : Int) : Takes ρ .unknown n
  | arith (op : ArithOp) {lhs rhs : IndexExpr} {a b n : Int} : Takes ρ lhs a → Takes ρ rhs b →
      op.result? a b = some n → Takes ρ (.arith op lhs rhs) n
  | compare (op : CompareOp) {lhs rhs : IndexExpr} {a b : Int} : Takes ρ lhs a → Takes ρ rhs b →
      Takes ρ (.compare op lhs rhs) (truth (op.States a b))
  | and {lhs rhs : IndexExpr} {a b : Int} : Takes ρ lhs a → Takes ρ rhs b →
      Takes ρ (.and lhs rhs) (truth (a ≠ 0 ∧ b ≠ 0))
  | or {lhs rhs : IndexExpr} {a b : Int} : Takes ρ lhs a → Takes ρ rhs b →
      Takes ρ (.or lhs rhs) (truth (a ≠ 0 ∨ b ≠ 0))
  | not {operand : IndexExpr} {a : Int} : Takes ρ operand a →
      Takes ρ (.not operand) (truth (a = 0))

namespace IndexExpr

variable {ρ : SymVar → Int} {e : IndexExpr} {n m : Int}

/-- A number takes its own value only. -/
theorem Takes.eq_of_value? (h : e.Takes ρ n) (hm : e.value? = some m) : n = m := by
  cases h with
  | imm n t => exact Option.some.inj hm
  | _ => cases hm

/-- A truth value takes the truth of what it decides. -/
theorem takes_ofBool {b : Bool} {p : Prop} [Decidable p] (h : b = true ↔ p) :
    (ofBool b).Takes ρ (truth p) := by
  have hvalue : truth p = if b then 1 else 0 := if_congr h.symm rfl rfl
  rw [hvalue]
  exact Takes.imm _ _

/-- Only an unknown dimension leaves a choice. -/
theorem Takes.unique (h : e.Takes ρ n) (he : e.hasUnknown = false) (h' : e.Takes ρ m) :
    n = m := by
  induction h generalizing m with
  | imm n t => exact (h'.eq_of_value? rfl).symm
  | var v =>
    cases h'
    rfl
  | unknown n => cases he
  | arith op _ _ hn ihl ihr =>
    obtain ⟨hl, hr⟩ := Bool.or_eq_false_iff.mp he
    cases h' with
    | arith _ hl' hr' hm =>
      rw [ihl hl hl', ihr hr hr', hm] at hn
      exact (Option.some.inj hn).symm
  | compare op _ _ ihl ihr =>
    obtain ⟨hl, hr⟩ := Bool.or_eq_false_iff.mp he
    cases h' with
    | compare _ hl' hr' => rw [ihl hl hl', ihr hr hr']
  | and _ _ ihl ihr =>
    obtain ⟨hl, hr⟩ := Bool.or_eq_false_iff.mp he
    cases h' with
    | and hl' hr' => rw [ihl hl hl', ihr hr hr']
  | or _ _ ihl ihr =>
    obtain ⟨hl, hr⟩ := Bool.or_eq_false_iff.mp he
    cases h' with
    | or hl' hr' => rw [ihl hl hl', ihr hr hr']
  | not _ ih =>
    cases h' with
    | not h' => rw [ih he h']

end IndexExpr

/-! ### Values of linear forms -/

namespace LinearForm

variable (ρ : SymVar → Int)

/-- The value of a list of terms. -/
def termsValue (terms : List (SymVar × Int)) : Int :=
  (terms.map fun term => term.2 * ρ term.1).sum

/-- The value of a form. -/
def value (a : LinearForm) : Int := termsValue ρ a.terms + a.constant

@[simp] theorem termsValue_nil : termsValue ρ [] = 0 := rfl

@[simp] theorem termsValue_cons (term : SymVar × Int) (terms : List (SymVar × Int)) :
    termsValue ρ (term :: terms) = term.2 * ρ term.1 + termsValue ρ terms := rfl

/-- Terms with the coefficient zero may be left out. -/
theorem termsValue_filter (terms : List (SymVar × Int)) :
    termsValue ρ (terms.filter (·.2 ≠ 0)) = termsValue ρ terms := by
  induction terms with
  | nil => rfl
  | cons term terms ih =>
    by_cases hzero : term.2 = 0
    · rw [List.filter_cons_of_neg (by simp [hzero]), ih, termsValue_cons, hzero]
      simp
    · rw [List.filter_cons_of_pos (by simp [hzero]), termsValue_cons, termsValue_cons, ih]

variable {ρ} {a b form : LinearForm} {factor n : Int} {terms terms' others : List (SymVar × Int)}

/-- To add a term adds its value. -/
theorem termsValue_addTerm? {v : SymVar} {c : Int} (h : addTerm? v c terms = some terms') :
    termsValue ρ terms' = termsValue ρ terms + c * ρ v := by
  induction terms generalizing terms' with
  | nil =>
    obtain ⟨c', hc, rfl⟩ := Option.map_eq_some_iff.mp h
    obtain ⟨-, rfl⟩ := wordOf?_eq_some_iff.mp hc
    simp
  | cons term rest ih =>
    obtain ⟨w, d⟩ := term
    simp only [addTerm?] at h
    -- the three places the term may go to: onto its own term, before the first one, further back
    split at h
    · next heq =>
      subst heq
      obtain ⟨e, he, rfl⟩ := Option.map_eq_some_iff.mp h
      obtain ⟨-, rfl⟩ := wordOf?_eq_some_iff.mp he
      simp only [termsValue_cons]
      ring
    · split at h
      · obtain ⟨c', hc, rfl⟩ := Option.map_eq_some_iff.mp h
        obtain ⟨-, rfl⟩ := wordOf?_eq_some_iff.mp hc
        simp only [termsValue_cons]
        ring
      · obtain ⟨rest', hrest, rfl⟩ := Option.map_eq_some_iff.mp h
        simp only [termsValue_cons, ih hrest]
        ring

/-- To add terms adds their values, with the sign. -/
theorem termsValue_addTerms? {sign : Int} (h : addTerms? sign terms others = some terms') :
    termsValue ρ terms' = termsValue ρ terms + sign * termsValue ρ others := by
  induction others generalizing terms with
  | nil =>
    obtain rfl := Option.some.inj h
    simp
  | cons term others ih =>
    obtain ⟨v, c⟩ := term
    obtain ⟨scaled, hscaled, h⟩ := Option.bind_eq_some_iff.mp h
    obtain ⟨-, rfl⟩ := wordOf?_eq_some_iff.mp hscaled
    obtain ⟨added, hadded, h⟩ := Option.bind_eq_some_iff.mp h
    rw [ih h, termsValue_addTerm? hadded, termsValue_cons]
    ring

/-- The value of a sum is the sum of the values. -/
theorem value_add? {sign : Int} (h : a.add? b sign = some form) :
    form.value ρ = a.value ρ + sign * b.value ρ := by
  obtain ⟨terms, hterms, h⟩ := Option.bind_eq_some_iff.mp h
  obtain ⟨shift, hshift, h⟩ := Option.bind_eq_some_iff.mp h
  obtain ⟨constant, hconstant, h⟩ := Option.bind_eq_some_iff.mp h
  obtain ⟨-, rfl⟩ := wordOf?_eq_some_iff.mp hshift
  obtain ⟨-, rfl⟩ := wordOf?_eq_some_iff.mp hconstant
  obtain rfl := Option.some.inj h
  simp only [value, termsValue_filter, termsValue_addTerms? hterms]
  ring

/-- To multiply terms multiplies their values. -/
theorem termsValue_scaleTerms? (h : scaleTerms? factor terms = some terms') :
    termsValue ρ terms' = factor * termsValue ρ terms := by
  induction terms generalizing terms' with
  | nil =>
    obtain rfl := Option.some.inj h
    simp
  | cons term rest ih =>
    obtain ⟨v, c⟩ := term
    obtain ⟨c', hc, h⟩ := Option.bind_eq_some_iff.mp h
    obtain ⟨-, rfl⟩ := wordOf?_eq_some_iff.mp hc
    obtain ⟨rest', hrest, h⟩ := Option.bind_eq_some_iff.mp h
    obtain rfl := Option.some.inj h
    simp only [termsValue_cons, ih hrest]
    ring

private theorem value_scale? (h : a.scale? factor = some form) :
    form.value ρ = factor * a.value ρ := by
  by_cases hzero : factor = 0
  · rw [scale?, if_pos hzero] at h
    obtain rfl := Option.some.inj h
    simp [value, ofConst, hzero]
  · rw [scale?, if_neg hzero] at h
    obtain ⟨terms, hterms, h⟩ := Option.bind_eq_some_iff.mp h
    obtain ⟨constant, hconstant, h⟩ := Option.bind_eq_some_iff.mp h
    obtain ⟨-, rfl⟩ := wordOf?_eq_some_iff.mp hconstant
    obtain rfl := Option.some.inj h
    simp only [value, termsValue_scaleTerms? hterms]
    ring

/-- A form without terms has the value of its constant. -/
theorem value_of_const? (h : a.const? = some n) : a.value ρ = n := by
  obtain ⟨terms, constant, t⟩ := a
  cases terms with
  | nil =>
    obtain rfl := Option.some.inj h
    simp [value]
  | cons term terms => cases h

private theorem value_mul? (h : a.mul? b = some form) : form.value ρ = a.value ρ * b.value ρ := by
  cases ha : a.const? with
  | some factor =>
    rw [mul?, ha] at h
    rw [value_scale? h, value_of_const? ha]
  | none =>
    cases hb : b.const? with
    | some factor =>
      rw [mul?, ha, hb] at h
      rw [value_scale? h, value_of_const? hb]
      ring
    | none =>
      rw [mul?, ha, hb] at h
      cases h

/-- An expression that has a linear form takes no value but that of the form. -/
theorem eq_value_of_takes {e : IndexExpr} (h : ofExpr? e = some form) (hn : e.Takes ρ n) :
    n = form.value ρ := by
  -- the induction is on the value, since a linear form has no unknown dimension in it
  induction hn generalizing form with
  | imm n t =>
    simp only [ofExpr?] at h
    split at h
    · obtain rfl := Option.some.inj h
      simp [value, ofConst]
    · cases h
  | var v =>
    simp only [ofExpr?] at h
    split at h
    · obtain rfl := Option.some.inj h
      simp [value, ofVar]
    · cases h
  | arith op _ _ hn ihl ihr =>
    cases op with
    | add | sub =>
      obtain ⟨a, ha, h⟩ := Option.bind_eq_some_iff.mp h
      obtain ⟨b, hb, h⟩ := Option.bind_eq_some_iff.mp h
      obtain rfl := Option.some.inj hn
      rw [value_add? h, ihl ha, ihr hb]
      ring
    | mul =>
      obtain ⟨a, ha, h⟩ := Option.bind_eq_some_iff.mp h
      obtain ⟨b, hb, h⟩ := Option.bind_eq_some_iff.mp h
      obtain rfl := Option.some.inj hn
      rw [value_mul? h, ihl ha, ihr hb]
    | floorDiv | floorMod | min | max => cases h
  | unknown | compare | and | or | not => cases h

private theorem takes_termExpr (t : DataType) (term : SymVar × Int) :
    (termExpr t term).Takes ρ (term.2 * ρ term.1) := by
  obtain ⟨v, c⟩ := term
  by_cases hc : c = 1
  · subst hc
    rw [termExpr, if_pos rfl, one_mul]
    exact .var v
  · rw [termExpr, if_neg hc, mul_comm]
    exact .arith .mul (.var v) (.imm c t) rfl

private theorem takes_sumFrom (t : DataType) {acc : IndexExpr} (hacc : acc.Takes ρ n)
    (terms : List (SymVar × Int)) : (sumFrom t acc terms).Takes ρ (n + termsValue ρ terms) := by
  induction terms generalizing acc n with
  | nil => simpa [sumFrom] using hacc
  | cons term terms ih =>
    have hnext : (IndexExpr.arith .add acc (termExpr t term)).Takes ρ (n + term.2 * ρ term.1) :=
      .arith .add hacc (takes_termExpr t term) rfl
    rw [termsValue_cons, ← add_assoc]
    exact ih hnext

/-- A form written out takes the value of the form. -/
theorem takes_toExpr (a : LinearForm) : a.toExpr.Takes ρ (a.value ρ) := by
  obtain ⟨terms, constant, t⟩ := a
  cases terms with
  | nil =>
    simp only [toExpr, value, termsValue_nil, zero_add]
    exact .imm constant t
  | cons first rest =>
    have hsum : (sumFrom t (termExpr t first) rest).Takes ρ (termsValue ρ (first :: rest)) :=
      takes_sumFrom t (takes_termExpr t first) rest
    by_cases hzero : constant = 0
    · simpa only [toExpr, value, hzero, if_true, add_zero] using hsum
    · simp only [toExpr, value, if_neg hzero]
      exact .arith .add hsum (.imm constant t) rfl

end LinearForm

end TensorLowering
