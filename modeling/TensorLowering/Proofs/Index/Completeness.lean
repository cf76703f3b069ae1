import TensorLowering.Proofs.Index.Soundness
import TensorLowering.Proofs.Index.Stability

/-!
# Linear expressions have one simplified form

An expression is linear if it is built from numbers and variables of one integer type by sums,
differences and products in which the value of one factor is fixed (`IndexExpr.Linear`). It denotes
a linear function of the variables that are not bound (`IndexExpr.Denotes`), and no other one
(`IndexExpr.Denotes.ext`).

The simplifier gives up where it meets a number that is no word. As long as this does not happen,
which is so if for every part of the expression the coefficients and the constant of what it denotes
are words and so are their opposites, a linear expression is written as the normal form of what it
denotes (`IndexExpr.Linear.exists_form`). Such a form is determined by the function it stands for.
So two expressions that denote the same function are simplified to the same expression, and they are
compared to a truth value if and only if their difference is constant
(`IndexExpr.simplify_complete`).

Which coefficients a step has to compute is not followed through the simplifier. It is read off the
function that the result denotes, at the assignments that are zero but for one variable.
-/

namespace TensorLowering

/-- The assignment with the values that are known in the place of those it gives. -/
def Bindings.impose (known : Bindings) (ρ : SymVar → Int) (v : SymVar) : Int :=
  (known.value? v).getD (ρ v)

/-- What is known agrees with an assignment on which it is imposed. -/
theorem Bindings.agreesWith_impose (known : Bindings) (ρ : SymVar → Int) :
    known.AgreesWith (known.impose ρ) := by
  intro v n h
  simp [impose, h]

/-! ### Linear functions -/

namespace LinearForm

variable {ρ ρ' : SymVar → Int} {known : Bindings} {a b form : LinearForm} {sign : Int}

private theorem value_congr (h : ∀ term ∈ a.terms, ρ term.1 = ρ' term.1) :
    a.value ρ = a.value ρ' := by
  have hterms : termsValue ρ a.terms = termsValue ρ' a.terms := by
    simp only [termsValue]
    exact congrArg List.sum (List.map_congr_left fun term hterm => by rw [h term hterm])
  rw [value, value, hterms]

private theorem Over.value_impose (ha : a.Over (known.value? · = none)) (ρ : SymVar → Int) :
    a.value (known.impose ρ) = a.value ρ :=
  value_congr fun term hterm => by simp [Bindings.impose, ha term hterm]

private theorem value_zero (a : LinearForm) : a.value (fun _ => 0) = a.constant := by
  simp [value, termsValue]

private theorem value_unit (a : LinearForm) (v : SymVar) :
    a.value (fun w => if w = v then 1 else 0) = coeff a.terms v + a.constant := rfl

private theorem value_of_terms_eq_nil (h : a.terms = []) : a.value ρ = a.constant := by
  simp [value, h]

/-- The coefficients and the constant are determined by the function. -/
theorem coeff_eq_of_value_eq (h : ∀ ρ, a.value ρ = b.value ρ) :
    (∀ v, coeff a.terms v = coeff b.terms v) ∧ a.constant = b.constant := by
  have hconstant := h fun _ => 0
  rw [value_zero, value_zero] at hconstant
  refine ⟨fun v => ?_, hconstant⟩
  have hv := h fun w => if w = v then 1 else 0
  rw [value_unit, value_unit] at hv
  omega

/-- The coefficients and the constant are words, and so are their opposites. -/
def Fits (a : LinearForm) : Prop :=
  (∀ v, (coeff a.terms v).natAbs ≤ 9223372036854775807) ∧ a.constant.natAbs ≤ 9223372036854775807

/-- A sum or a difference has a form if what it stands for fits. -/
private theorem exists_add?_of_fits (ha : a.Normal) (hb : b.Normal) (hfits : b.Fits)
    (hsign : sign = 1 ∨ sign = -1) (h : ∀ ρ, form.value ρ = a.value ρ + sign * b.value ρ)
    (hform : form.Fits) : ∃ sum, a.add? b sign = some sum := by
  have hconstant := h fun _ => 0
  simp only [value_zero] at hconstant
  have hcoeff : ∀ v, coeff form.terms v = coeff a.terms v + sign * coeff b.terms v := by
    intro v
    have hv := h fun w => if w = v then 1 else 0
    simp only [value_unit, mul_add] at hv
    omega
  have hwords : ∀ v, InWord (sign * coeff b.terms v) ∧
      InWord (coeff a.terms v + sign * coeff b.terms v) := by
    intro v
    have hv := hform.1 v
    have hv' := hfits.1 v
    rw [hcoeff] at hv
    obtain rfl | rfl := hsign <;> constructor <;> omega
  have hword : InWord (sign * b.constant) ∧ InWord (a.constant + sign * b.constant) := by
    have hk := hform.2
    have hk' := hfits.2
    rw [hconstant] at hk
    obtain rfl | rfl := hsign <;> constructor <;> omega
  exact exists_add? ha hb hwords hword

/-- A multiple has a form if what it stands for fits. -/
private theorem exists_scale?_of_fits {factor : Int} (ha : a.Normal)
    (h : ∀ ρ, form.value ρ = factor * a.value ρ) (hform : form.Fits) :
    ∃ multiple, a.scale? factor = some multiple := by
  have hconstant := h fun _ => 0
  simp only [value_zero] at hconstant
  have hcoeff : ∀ v, coeff form.terms v = factor * coeff a.terms v := by
    intro v
    have hv := h fun w => if w = v then 1 else 0
    simp only [value_unit, mul_add] at hv
    omega
  have hwords : ∀ v, InWord (factor * coeff a.terms v) := by
    intro v
    have hv := hform.1 v
    rw [hcoeff] at hv
    constructor <;> omega
  have hword : InWord (factor * a.constant) := by
    have hk := hform.2
    rw [hconstant] at hk
    constructor <;> omega
  exact exists_scale? ha hwords hword

/-- A product with a constant has a form if what it stands for fits. -/
private theorem exists_mul?_of_fits (ha : a.Normal) (hb : b.Normal)
    (hconst : a.terms = [] ∨ b.terms = []) (h : ∀ ρ, form.value ρ = a.value ρ * b.value ρ)
    (hform : form.Fits) : ∃ product, a.mul? b = some product := by
  by_cases hnil : a.terms = []
  · simp only [value_of_terms_eq_nil hnil] at h
    simpa [mul?, const?, hnil] using exists_scale?_of_fits hb h hform
  · have hnil' := hconst.resolve_left hnil
    simp only [value_of_terms_eq_nil hnil', mul_comm (a.value _)] at h
    simpa [mul?, const?, hnil, hnil'] using exists_scale?_of_fits ha h hform

end LinearForm

namespace IndexExpr

open LinearForm

variable {known : Bindings} {t : DataType} {e lhs rhs : IndexExpr} {form l r : LinearForm}
  {op : ArithOp}

/-! ### Linear expressions -/

/-- The value does not depend on the variables that are not bound. -/
def Fixed (known : Bindings) (e : IndexExpr) : Prop :=
  ∃ n, ∀ ρ, known.AgreesWith ρ → e.Takes ρ n

/-- Built from numbers and variables of one type by sums, differences and products in which the
value of one factor is fixed. -/
inductive Linear (known : Bindings) (t : DataType) : IndexExpr → Prop where
  | imm (n : Int) : Linear known t (.imm n t)
  | var {v : SymVar} : v.dtype = t → Linear known t (.var v)
  | add {lhs rhs : IndexExpr} : Linear known t lhs → Linear known t rhs →
      Linear known t (.arith .add lhs rhs)
  | sub {lhs rhs : IndexExpr} : Linear known t lhs → Linear known t rhs →
      Linear known t (.arith .sub lhs rhs)
  | mul {lhs rhs : IndexExpr} : lhs.Fixed known ∨ rhs.Fixed known → Linear known t lhs →
      Linear known t rhs → Linear known t (.arith .mul lhs rhs)

/-- The linear function of the variables that are not bound that the expression is. -/
structure Denotes (known : Bindings) (e : IndexExpr) (form : LinearForm) : Prop where
  unbound : form.Over (known.value? · = none)
  takes : ∀ ρ, known.AgreesWith ρ → e.Takes ρ (form.value ρ)

/-- The coefficients and the constant of the function that the expression denotes are words, and so
are their opposites. -/
def Fits (known : Bindings) (e : IndexExpr) : Prop :=
  ∃ form : LinearForm, e.Denotes known form ∧ form.Fits

/-- This holds of the expression and of all its parts. -/
def EveryPart (p : IndexExpr → Prop) : IndexExpr → Prop
  | .imm n t => p (.imm n t)
  | .var v => p (.var v)
  | .unknown => p .unknown
  | .arith op lhs rhs => p (.arith op lhs rhs) ∧ lhs.EveryPart p ∧ rhs.EveryPart p
  | .compare op lhs rhs => p (.compare op lhs rhs) ∧ lhs.EveryPart p ∧ rhs.EveryPart p
  | .and lhs rhs => p (.and lhs rhs) ∧ lhs.EveryPart p ∧ rhs.EveryPart p
  | .or lhs rhs => p (.or lhs rhs) ∧ lhs.EveryPart p ∧ rhs.EveryPart p
  | .not operand => p (.not operand) ∧ operand.EveryPart p

private theorem EveryPart.self {p : IndexExpr → Prop} (h : e.EveryPart p) : p e := by
  cases e with
  | imm | var | unknown => exact h
  | arith | compare | and | or | not => exact h.1

/-- What follows from a property holds of every part of which the property does. -/
theorem EveryPart.imp {p q : IndexExpr → Prop} (hpq : ∀ part, p part → q part)
    (h : e.EveryPart p) : e.EveryPart q := by
  induction e with
  | imm | var | unknown => exact hpq _ h
  | arith _ _ _ ihl ihr | compare _ _ _ ihl ihr | and _ _ ihl ihr | or _ _ ihl ihr =>
    exact ⟨hpq _ h.1, ihl h.2.1, ihr h.2.2⟩
  | not _ ih => exact ⟨hpq _ h.1, ih h.2⟩

namespace Linear

variable {ρ : SymVar → Int}

private theorem operands (he : (arith op lhs rhs).Linear known t) :
    lhs.Linear known t ∧ rhs.Linear known t := by
  cases he with
  | add hl hr | sub hl hr | mul _ hl hr => exact ⟨hl, hr⟩

private theorem hasUnknown (he : e.Linear known t) : e.hasUnknown = false := by
  induction he with
  | imm | var => rfl
  | add _ _ ihl ihr | sub _ _ ihl ihr | mul _ _ _ ihl ihr =>
    simp [IndexExpr.hasUnknown, ihl, ihr]

private theorem exists_takes (he : e.Linear known t) (ρ : SymVar → Int) : ∃ n, e.Takes ρ n := by
  induction he with
  | imm n => exact ⟨n, .imm n t⟩
  | @var v => exact ⟨ρ v, .var v⟩
  | add _ _ ihl ihr =>
    obtain ⟨m, hm⟩ := ihl
    obtain ⟨n, hn⟩ := ihr
    exact ⟨m + n, .arith .add hm hn rfl⟩
  | sub _ _ ihl ihr =>
    obtain ⟨m, hm⟩ := ihl
    obtain ⟨n, hn⟩ := ihr
    exact ⟨m - n, .arith .sub hm hn rfl⟩
  | mul _ _ _ ihl ihr =>
    obtain ⟨m, hm⟩ := ihl
    obtain ⟨n, hn⟩ := ihr
    exact ⟨m * n, .arith .mul hm hn rfl⟩

private theorem logicalOperands (he : e.Linear known t) : e.LogicalOperands ρ := by
  induction he with
  | imm | var => trivial
  | add _ _ ihl ihr | sub _ _ ihl ihr | mul _ _ _ ihl ihr => exact ⟨ihl, ihr⟩

private theorem wellTyped (he : e.Linear known t) : e.dtype = t ∧ e.WellTyped := by
  induction he with
  | imm n => exact ⟨rfl, trivial⟩
  | var hv => exact ⟨hv, trivial⟩
  | add _ _ ihl ihr | sub _ _ ihl ihr | mul _ _ _ ihl ihr =>
    exact ⟨ihl.1, ihl.1.trans ihr.1.symm, ihl.2, ihr.2⟩

/-- What is read off the simplified form is what the expression denotes. -/
theorem denotes (he : e.Linear known t) (h : ofExpr? (e.simplify known) = some form) :
    e.Denotes known form := by
  refine ⟨Over.of_ofExpr? h (over_simplify known e), fun ρ hρ => ?_⟩
  obtain ⟨n, hn⟩ := he.exists_takes ρ
  rw [← eq_value_of_takes h (hn.simplify hρ he.logicalOperands)]
  exact hn

private theorem dtype_form (he : e.Linear known t) (h : ofExpr? (e.simplify known) = some form) :
    form.dtype = t := by
  obtain ⟨hdtype, htyped⟩ := he.wellTyped
  rw [(typed_of_ofExpr? h htyped.simplify.2).1, htyped.simplify.1, hdtype]

end Linear

namespace Denotes

private theorem sub (hl : lhs.Denotes known l) (hr : rhs.Denotes known r)
    (hadd : l.add? r (-1) = some form) : (arith .sub lhs rhs).Denotes known form := by
  refine ⟨hl.unbound.add? hr.unbound hadd, fun ρ hρ => ?_⟩
  have hvalue : form.value ρ = l.value ρ - r.value ρ := by
    rw [value_add? hadd]
    ring
  rw [hvalue]
  exact .arith .sub (hl.takes ρ hρ) (hr.takes ρ hρ) rfl

/-- **An expression denotes one linear function.** -/
theorem value_eq (hl : e.Denotes known l) (hr : e.Denotes known r) (he : e.hasUnknown = false)
    (ρ : SymVar → Int) : l.value ρ = r.value ρ := by
  have hρ := known.agreesWith_impose ρ
  rw [← hl.unbound.value_impose ρ, ← hr.unbound.value_impose ρ]
  exact (hl.takes _ hρ).unique he (hr.takes _ hρ)

/-- What an operator denotes is the result on what its operands denote. -/
private theorem result? (hl : lhs.Denotes known l) (hr : rhs.Denotes known r)
    (h : (arith op lhs rhs).Denotes known form) (hlhs : lhs.hasUnknown = false)
    (hrhs : rhs.hasUnknown = false) (ρ : SymVar → Int) :
    op.result? (l.value ρ) (r.value ρ) = some (form.value ρ) := by
  have hρ := known.agreesWith_impose ρ
  have htakes := h.takes _ hρ
  rw [h.unbound.value_impose] at htakes
  cases htakes with
  | arith _ hm hn hresult =>
    have hm' := hm.unique hlhs (hl.takes _ hρ)
    have hn' := hn.unique hrhs (hr.takes _ hρ)
    rwa [hm', hn', hl.unbound.value_impose, hr.unbound.value_impose] at hresult

private theorem fits (h : e.Denotes known form) (he : e.hasUnknown = false) (hfits : e.Fits known) :
    form.Fits := by
  obtain ⟨other, hother, hfit⟩ := hfits
  obtain ⟨hcoeff, hconstant⟩ := coeff_eq_of_value_eq (h.value_eq hother he)
  rw [LinearForm.Fits, hconstant]
  simp only [hcoeff]
  exact hfit

private theorem terms_eq_nil (h : e.Denotes known form) (he : e.hasUnknown = false)
    (hform : form.Normal) (hfixed : e.Fixed known) : form.terms = [] := by
  obtain ⟨n, hn⟩ := hfixed
  have hconst : e.Denotes known (ofConst n form.dtype) := by
    refine ⟨fun term hterm => absurd hterm List.not_mem_nil, fun ρ hρ => ?_⟩
    rw [value_of_terms_eq_nil rfl]
    exact hn ρ hρ
  exact hform.terms_eq_nil (coeff_eq_of_value_eq (h.value_eq hconst he)).1

end Denotes

/-! ### The simplified form of a linear expression -/

namespace Linear

/-- The forms of the operands can be added up or multiplied. -/
private theorem exists_read (he : (arith op lhs rhs).Linear known t)
    (hfits : (arith op lhs rhs).EveryPart (·.Fits known))
    (hlhs : ofExpr? (lhs.simplify known) = some l) (hrhs : ofExpr? (rhs.simplify known) = some r) :
    ∃ form, ofExpr? (.arith op (lhs.simplify known) (rhs.simplify known)) = some form := by
  obtain ⟨⟨form, hdenotes, hform⟩, -, hfitr⟩ := hfits
  obtain ⟨hel, her⟩ := he.operands
  have hl := hel.denotes hlhs
  have hr := her.denotes hrhs
  have hvalue := hl.result? hr hdenotes hel.hasUnknown her.hasUnknown
  have hnormal := normal_of_ofExpr? hlhs
  have hnormal' := normal_of_ofExpr? hrhs
  have hfit := hr.fits her.hasUnknown hfitr.self
  cases he with
  | add =>
    have hsum ρ : form.value ρ = l.value ρ + 1 * r.value ρ := by
      rw [one_mul]
      exact (Option.some.inj (hvalue ρ)).symm
    obtain ⟨sum, hsum⟩ := exists_add?_of_fits hnormal hnormal' hfit (Or.inl rfl) hsum hform
    exact ⟨sum, by simp [ofExpr?, hlhs, hrhs, hsum]⟩
  | sub =>
    have hsum ρ : form.value ρ = l.value ρ + -1 * r.value ρ := by
      rw [neg_one_mul, ← sub_eq_add_neg]
      exact (Option.some.inj (hvalue ρ)).symm
    obtain ⟨sum, hsum⟩ := exists_add?_of_fits hnormal hnormal' hfit (Or.inr rfl) hsum hform
    exact ⟨sum, by simp [ofExpr?, hlhs, hrhs, hsum]⟩
  | mul hfixed =>
    have hconst : l.terms = [] ∨ r.terms = [] :=
      hfixed.imp (hl.terms_eq_nil hel.hasUnknown hnormal) (hr.terms_eq_nil her.hasUnknown hnormal')
    obtain ⟨product, hproduct⟩ := exists_mul?_of_fits hnormal hnormal' hconst
      (fun ρ => (Option.some.inj (hvalue ρ)).symm) hform
    exact ⟨product, by simp [ofExpr?, hlhs, hrhs, hproduct]⟩

/-- Whether the operands are numbers that are folded or not, the result is a form written out. -/
private theorem exists_form_arith (ht : t.isInt = true) (he : (arith op lhs rhs).Linear known t)
    (h : ofExpr? (.arith op (lhs.simplify known) (rhs.simplify known)) = some form) :
    ∃ form, ofExpr? ((arith op lhs rhs).simplify known) = some form ∧
      (arith op lhs rhs).simplify known = form.toExpr := by
  obtain ⟨hdtype, hsame, hl, hr⟩ := he.wellTyped
  have hlhs : (lhs.simplify known).dtype = t := hl.simplify.1.trans hdtype
  cases hfold : foldArith? op (lhs.simplify known) (rhs.simplify known) with
  | some n =>
    have hsimplify : (arith op lhs rhs).simplify known = .imm n t := by
      simp only [IndexExpr.simplify, simplifyArith, hfold, hlhs]
    exact ⟨ofConst n t, by simp [hsimplify, ofExpr?, ht], hsimplify⟩
  | none =>
    have hsimplify : (arith op lhs rhs).simplify known = form.toExpr :=
      simplifyArith_of_ofExpr? hfold h
    have hrebuilt : (arith op (lhs.simplify known) (rhs.simplify known)).WellTyped :=
      ⟨hl.simplify.1.trans (hsame.trans hr.simplify.1.symm), hl.simplify.2, hr.simplify.2⟩
    refine ⟨form, ?_, hsimplify⟩
    rw [hsimplify]
    exact ofExpr?_toExpr (normal_of_ofExpr? h) (typed_of_ofExpr? h hrebuilt).2

/-- **A linear expression is written as a linear form**, if what its parts denote fits. -/
theorem exists_form (ht : t.isInt = true) (he : e.Linear known t)
    (hfits : e.EveryPart (·.Fits known)) :
    ∃ form, ofExpr? (e.simplify known) = some form ∧ e.simplify known = form.toExpr := by
  induction e with
  | imm n u =>
    cases he with
    | imm => exact ⟨ofConst n t, by simp [IndexExpr.simplify, ofExpr?, ht], rfl⟩
  | var v =>
    cases he with
    | var hv =>
      subst hv
      cases hvalue : known.value? v with
      | some n => exact ⟨ofConst n v.dtype, by simp [IndexExpr.simplify, ofExpr?, hvalue, ht],
          by simp [IndexExpr.simplify, hvalue, ofConst, toExpr]⟩
      | none => exact ⟨ofVar v, by simp [IndexExpr.simplify, ofExpr?, hvalue, ht],
          by simp [IndexExpr.simplify, hvalue, ofVar, toExpr, sumFrom, termExpr]⟩
  | arith op lhs rhs ihl ihr =>
    obtain ⟨hl, hr⟩ := he.operands
    obtain ⟨l, hlhs, -⟩ := ihl hl hfits.2.1
    obtain ⟨r, hrhs, -⟩ := ihr hr hfits.2.2
    obtain ⟨form, hform⟩ := he.exists_read hfits hlhs hrhs
    exact he.exists_form_arith ht hform
  | unknown | compare | and | or | not => cases he

end Linear

/-! ### Comparisons -/

/-- Forms that are written out are compared if and only if their difference holds no variable. -/
private theorem simplifyCompare_eq_imm_iff (cmp : CompareOp) (hl : ofExpr? l.toExpr = some l)
    (hr : ofExpr? r.toExpr = some r) (hadd : l.add? r (-1) = some form) (hform : form.Normal) :
    (∃ n u, simplifyCompare cmp l.toExpr r.toExpr = .imm n u) ↔ form.terms = [] := by
  have hunknown : (l.toExpr.hasUnknown || r.toExpr.hasUnknown) = false := by
    simp [hasUnknown_of_ofExpr? hl, hasUnknown_of_ofExpr? hr]
  have hdifference : constantDifference? l.toExpr r.toExpr = form.const? := by
    simp [constantDifference?, hl, hr, hadd]
  -- equal sides have a difference without variables
  have hcancel (h : l.terms = r.terms) : form.terms = [] := by
    apply hform.terms_eq_nil
    intro v
    obtain ⟨terms, hterms, -, -, rfl⟩ := add?_eq_some_iff.mp hadd
    rw [coeff_filter, coeff_addTerms? hterms, h]
    ring
  have hnumber {a : LinearForm} {n : Int} (h : a.toExpr.value? = some n) : a.terms = [] := by
    by_contra hne
    rw [value?_toExpr hne] at h
    cases h
  constructor
  · rintro ⟨n, u, h⟩
    unfold simplifyCompare at h
    split at h
    · next hm hn => exact hcancel ((hnumber hm).trans (hnumber hn).symm)
    · rw [hunknown, hdifference] at h
      simp only [Bool.false_eq_true, if_false] at h
      split at h
      · next d hd =>
        simp only [const?, List.isEmpty_iff] at hd
        split at hd
        · assumption
        · cases hd
      · split at h
        · next heq =>
          rw [heq, hr] at hl
          exact hcancel (congrArg _ (Option.some.inj hl)).symm
        · cases h
  · intro hnil
    have hconst : form.const? = some form.constant := by simp [const?, hnil]
    unfold simplifyCompare
    split
    · exact ⟨_, _, rfl⟩
    · rw [hunknown, hdifference, hconst]
      exact ⟨_, _, rfl⟩

/-- **Simplification is complete for linear expressions.** Let the coefficients and the constants of
what is denoted by the difference of `a` and `b`, and by all its parts, fit into words. If `a` and
`b` are the same function of the variables that are not bound, they are simplified to the same
expression. And a comparison of the two is simplified to a number if and only if their difference
is constant; the number is the truth value of the comparison. -/
theorem simplify_complete (known : Bindings) (t : DataType) (a b : IndexExpr)
    (ht : t.isInt = true) (ha : a.Linear known t) (hb : b.Linear known t)
    (hfits : (arith .sub a b).EveryPart (·.Fits known)) :
    ((∀ ρ, known.AgreesWith ρ → ∀ n, a.Takes ρ n ↔ b.Takes ρ n) →
        a.simplify known = b.simplify known) ∧
      ∀ cmp : CompareOp,
        ((∃ n u, (compare cmp a b).simplify known = .imm n u) ↔ (arith .sub a b).Fixed known) ∧
          ∀ n u, (compare cmp a b).simplify known = .imm n u →
            u = .bool ∧ ∀ ρ, known.AgreesWith ρ → (compare cmp a b).Takes ρ n := by
  obtain ⟨l, hl, hsimplify⟩ := ha.exists_form ht hfits.2.1
  obtain ⟨r, hr, hsimplify'⟩ := hb.exists_form ht hfits.2.2
  constructor
  · intro hsame
    have hdenotes : b.Denotes known l :=
      ⟨(ha.denotes hl).unbound, fun ρ hρ => (hsame ρ hρ _).mp ((ha.denotes hl).takes ρ hρ)⟩
    obtain ⟨hcoeff, hconstant⟩ :=
      coeff_eq_of_value_eq (hdenotes.value_eq (hb.denotes hr) hb.hasUnknown)
    have hform : l = r := (normal_of_ofExpr? hl).ext (normal_of_ofExpr? hr) hcoeff hconstant
      ((ha.dtype_form hl).trans (hb.dtype_form hr).symm)
    rw [hsimplify, hsimplify', hform]
  · intro cmp
    have hsub := ha.sub hb
    obtain ⟨form, hread⟩ := hsub.exists_read hfits hl hr
    have hadd : l.add? r (-1) = some form := by simpa [ofExpr?, hl, hr] using hread
    have hnormal := (normal_of_ofExpr? hl).add? hadd
    have hdenotes := (ha.denotes hl).sub (hb.denotes hr) hadd
    constructor
    · rw [IndexExpr.simplify, hsimplify, hsimplify', simplifyCompare_eq_imm_iff cmp
        (hsimplify ▸ hl) (hsimplify' ▸ hr) hadd hnormal]
      constructor
      · intro hnil
        refine ⟨form.constant, fun ρ hρ => ?_⟩
        rw [← value_of_terms_eq_nil hnil]
        exact hdenotes.takes ρ hρ
      · exact hdenotes.terms_eq_nil hsub.hasUnknown hnormal
    · intro n u h
      have htyped : (compare cmp a b).WellTyped := ⟨ha.wellTyped.2, hb.wellTyped.2⟩
      have hdtype : ((compare cmp a b).simplify known).dtype = .bool := htyped.simplify.1
      rw [h] at hdtype
      refine ⟨hdtype, fun ρ hρ => ?_⟩
      have htakes : (compare cmp a b).Takes ρ (truth (cmp.States (l.value ρ) (r.value ρ))) :=
        .compare cmp ((ha.denotes hl).takes ρ hρ) ((hb.denotes hr).takes ρ hρ)
      have hlogical : (compare cmp a b).LogicalOperands ρ :=
        ⟨ha.logicalOperands, hb.logicalOperands⟩
      have hvalue := htakes.simplify hρ hlogical
      rw [h] at hvalue
      rw [← hvalue.eq_of_value? rfl]
      exact htakes

/-- With `m` known to be `2`, `n * m - n` and `n` are the same function of `n`. Both are simplified
to the same expression, and `n * m - n <= n` is simplified to a number. -/
theorem simplify_complete_doubled :
    let n : SymVar := ⟨0, "n", .int64⟩
    let m : SymVar := ⟨1, "m", .int64⟩
    let known : Bindings := Bindings.bind [] m 2
    let a := IndexExpr.arith .sub (.arith .mul (.var n) (.var m)) (.var n)
    a.simplify known = (IndexExpr.var n).simplify known ∧
      ∃ k u, (IndexExpr.compare .le a (.var n)).simplify known = .imm k u := by
  intro n m known a
  have htakes : ∀ ρ, known.AgreesWith ρ → (IndexExpr.var m).Takes ρ 2 := by
    intro ρ hρ
    rw [← hρ m 2 rfl]
    exact .var m
  have hm : (IndexExpr.var m).Linear known .int64 := .var rfl
  have hn : (IndexExpr.var n).Linear known .int64 := .var rfl
  have hmul : (IndexExpr.arith .mul (.var n) (.var m)).Linear known .int64 :=
    .mul (Or.inr ⟨2, htakes⟩) hn hm
  have ha : a.Linear known .int64 := hmul.sub hn
  have hfits {e : IndexExpr} (he : e.Linear known .int64) (c k : Int)
      (hread : LinearForm.ofExpr? (e.simplify known) = some ⟨[(n, c)].filter (·.2 ≠ 0), k, .int64⟩)
      (hc : c.natAbs ≤ 2) (hk : k.natAbs ≤ 2) : e.Fits known := by
    refine ⟨_, he.denotes hread, fun v => ?_, hk.trans (by decide)⟩
    rw [coeff_filter, coeff_cons, coeff_nil]
    split <;> omega
  have hn' : (IndexExpr.var n).Fits known := hfits hn 1 0 rfl (by decide) (by decide)
  have hparts : (IndexExpr.arith .sub a (.var n)).EveryPart (·.Fits known) :=
    ⟨hfits (ha.sub hn) 0 0 rfl (by decide) (by decide),
      ⟨hfits ha 1 0 rfl (by decide) (by decide),
        ⟨hfits hmul 2 0 rfl (by decide) (by decide), hn',
          hfits hm 0 2 rfl (by decide) (by decide)⟩, hn'⟩, hn'⟩
  have hsame : ∀ ρ, known.AgreesWith ρ → ∀ k, a.Takes ρ k ↔ (IndexExpr.var n).Takes ρ k := by
    intro ρ hρ k
    have hdoubled : a.Takes ρ (ρ n * 2 - ρ n) :=
      .arith .sub (.arith .mul (.var n) (htakes ρ hρ) rfl) (.var n) rfl
    have hvalue : ρ n * 2 - ρ n = ρ n := by omega
    rw [hvalue] at hdoubled
    constructor
    · intro h
      rw [← hdoubled.unique rfl h]
      exact .var n
    · intro h
      rw [← (Takes.var n).unique rfl h]
      exact hdoubled
  obtain ⟨hequal, hcompare⟩ :=
    simplify_complete known .int64 a (.var n) rfl ha hn hparts
  refine ⟨hequal hsame, (hcompare .le).1.mpr ⟨0, fun ρ hρ => ?_⟩⟩
  have hdifference := Takes.arith .sub ((hsame ρ hρ _).mpr (.var n)) (.var n) rfl
  rwa [Int.sub_self] at hdifference

end IndexExpr

end TensorLowering
