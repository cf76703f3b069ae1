import TensorLowering.Proofs.Index.Alike
import TensorLowering.Proofs.Index.Stability

/-!
# What does not depend on the numbers of variables

The terms of a sum are written in the order of the numbers of their variables. Under a one-to-one
change of numbers that keeps no order, simplification therefore does not take expressions that
correspond to expressions that correspond. What they have in common is said in two steps.

* Two linear forms are `LinearForm.Renumbered` if variables that correspond have the same
  coefficients. The operations on forms have a result on both sides or on neither, since the numbers
  that have to fit into words are the coefficients (`LinearForm.Renumbered.optionRel_add?`,
  `LinearForm.Renumbered.optionRel_mul?`).
* Two simplified expressions are `IndexExpr.Renumbered` if they are built alike from sums that were
  written from such forms and are read back as them, and from what is linear on neither side.

A sum is read back as the form it was written from if its variables have one element type. So
well-typed expressions that correspond are simplified to expressions that are renumbered
(`IndexExpr.Alike.simplify`), and a well-typed guard is proved whatever the numbers are
(`IndexExpr.WellTyped.steady`). Of other guards this is not true, as the example at the end shows.
-/

namespace TensorLowering

/-- If either value may be missing only together with the other one, and the values are related. -/
private theorem optionRel_of_exists {α β : Type} {P : α → β → Prop} {o : Option α} {o' : Option β}
    (hl : ∀ a, o = some a → ∃ b, o' = some b) (hr : ∀ b, o' = some b → ∃ a, o = some a)
    (hP : ∀ a b, o = some a → o' = some b → P a b) : Option.Rel P o o' := by
  cases o with
  | some a =>
    obtain ⟨b, rfl⟩ := hl a rfl
    exact Option.Rel.some (hP a b rfl rfl)
  | none =>
    cases o' with
    | some b =>
      obtain ⟨a, ha⟩ := hr b rfl
      cases ha
    | none => exact Option.Rel.none

variable {R : SymId → SymId → Prop}

private theorem SymVar.Alike.flip {v v' : SymVar} (h : v.Alike R v') : v'.Alike (flip R) v :=
  ⟨h.number, h.name.symm, h.dtype.symm⟩

/-! ### Linear forms -/

namespace LinearForm

/-- Normal forms with the same coefficients for variables that correspond, and in which no others
occur. -/
structure Renumbered (R : SymId → SymId → Prop) (a a' : LinearForm) : Prop where
  normal : a.Normal
  normal' : a'.Normal
  coeff : ∀ v v' : SymVar, v.Alike R v' → coeff a.terms v = coeff a'.terms v'
  left : a.Over fun v => ∃ v' : SymVar, v.Alike R v'
  right : a'.Over fun v' => ∃ v : SymVar, v.Alike R v'
  constant : a.constant = a'.constant
  dtype : a.dtype = a'.dtype

private theorem renumbered_ofConst (n : Int) (t : DataType) :
    Renumbered R (ofConst n t) (ofConst n t) :=
  ⟨normal_ofConst n t, normal_ofConst n t, fun _ _ _ => rfl, nofun, nofun, rfl, rfl⟩

private theorem renumbered_ofVar (hR : Relator.BiUnique R) {v v' : SymVar} (hv : v.Alike R v') :
    Renumbered R (ofVar v) (ofVar v') := by
  refine ⟨normal_ofVar v, normal_ofVar v', fun w w' hw => ?_, ?_, ?_, rfl, hv.dtype⟩
  · have hiff : v = w ↔ v' = w' := hv.eq_iff hR hw
    simp only [ofVar, coeff_cons, coeff_nil, hiff]
  · exact List.forall_mem_singleton.mpr ⟨v', hv⟩
  · exact List.forall_mem_singleton.mpr ⟨v, hv⟩

namespace Renumbered

variable {a a' b b' form form' : LinearForm} {factor sign : Int}

/-- Forms are renumbered both ways. -/
theorem symm (h : Renumbered R a a') : Renumbered (flip R) a' a :=
  ⟨h.normal', h.normal, fun v' v hv => (h.coeff v v' hv.flip).symm,
    fun term hterm => (h.right term hterm).imp fun _ hv => hv.flip,
    fun term hterm => (h.left term hterm).imp fun _ hv => hv.flip, h.constant.symm, h.dtype.symm⟩

/-- A variable that corresponds to none does not occur. -/
theorem coeff_eq_zero (h : Renumbered R a a') {v' : SymVar} (hv : ¬∃ v : SymVar, v.Alike R v') :
    LinearForm.coeff a'.terms v' = 0 := by
  refine LinearForm.coeff_eq_zero fun term hterm heq => hv ?_
  obtain ⟨v, hterm⟩ := h.right term hterm
  exact ⟨v, heq ▸ hterm⟩

/-- What holds of the coefficients on the left and of zero holds of those on the right. -/
private theorem coeff_right {P : Int → Prop} (h : Renumbered R a a')
    (hP : ∀ v, P (LinearForm.coeff a.terms v)) (hzero : P 0) (v' : SymVar) :
    P (LinearForm.coeff a'.terms v') := by
  by_cases hv : ∃ v : SymVar, v.Alike R v'
  · obtain ⟨v, hv⟩ := hv
    rw [← h.coeff v v' hv]
    exact hP v
  · rw [h.coeff_eq_zero hv]
    exact hzero

/-- The same for two forms at once. -/
private theorem coeffs_right {P : Int → Int → Prop} (ha : Renumbered R a a')
    (hb : Renumbered R b b')
    (hP : ∀ v, P (LinearForm.coeff a.terms v) (LinearForm.coeff b.terms v)) (hzero : P 0 0)
    (v' : SymVar) : P (LinearForm.coeff a'.terms v') (LinearForm.coeff b'.terms v') := by
  by_cases hv : ∃ v : SymVar, v.Alike R v'
  · obtain ⟨v, hv⟩ := hv
    rw [← ha.coeff v v' hv, ← hb.coeff v v' hv]
    exact hP v
  · rw [ha.coeff_eq_zero hv, hb.coeff_eq_zero hv]
    exact hzero

private theorem terms_eq_nil (h : Renumbered R a a') (hnil : a.terms = []) : a'.terms = [] := by
  refine h.normal'.terms_eq_nil (h.coeff_right (P := (· = 0)) (fun v => ?_) rfl)
  rw [hnil, coeff_nil]

private theorem const?_eq (h : Renumbered R a a') : a.const? = a'.const? := by
  have hempty : a.terms.isEmpty = a'.terms.isEmpty := by
    rw [Bool.eq_iff_iff, List.isEmpty_iff, List.isEmpty_iff]
    exact ⟨h.terms_eq_nil, h.symm.terms_eq_nil⟩
  rw [const?, const?, hempty, h.constant]

/-- A form is renumbered to one form only. -/
private theorem unique (h : Renumbered R a b) (h' : Renumbered R a b') : b = b' := by
  refine h.normal'.ext h'.normal' (fun v' => ?_) (h.constant.symm.trans h'.constant)
    (h.dtype.symm.trans h'.dtype)
  by_cases hv : ∃ v : SymVar, v.Alike R v'
  · obtain ⟨v, hv⟩ := hv
    rw [← h.coeff v v' hv, ← h'.coeff v v' hv]
  · rw [h.coeff_eq_zero hv, h'.coeff_eq_zero hv]

/-! #### Operations -/

/-- If a sum has a form, so has what it is renumbered to. -/
private theorem exists_add? (ha : Renumbered R a a') (hb : Renumbered R b b')
    (h : a.add? b sign = some form) : ∃ form', a'.add? b' sign = some form' := by
  obtain ⟨hcoeff, hconstant⟩ := inWord_of_add? ha.normal hb.normal h
  rw [ha.constant, hb.constant] at hconstant
  refine LinearForm.exists_add? ha.normal' hb.normal' ?_ hconstant
  refine ha.coeffs_right (P := fun c d => InWord (sign * d) ∧ InWord (c + sign * d)) hb hcoeff ?_
  rw [mul_zero, zero_add]
  exact ⟨inWord_zero, inWord_zero⟩

private theorem add? (ha : Renumbered R a a') (hb : Renumbered R b b')
    (h : a.add? b sign = some form) (h' : a'.add? b' sign = some form') :
    Renumbered R form form' := by
  refine ⟨ha.normal.add? h, ha.normal'.add? h', fun v v' hv => ?_, Over.add? ha.left hb.left h,
    Over.add? ha.right hb.right h', ?_, ?_⟩
  · rw [coeff_add? h, coeff_add? h', ha.coeff v v' hv, hb.coeff v v' hv]
  · obtain ⟨_, -, -, -, rfl⟩ := add?_eq_some_iff.mp h
    obtain ⟨_, -, -, -, rfl⟩ := add?_eq_some_iff.mp h'
    rw [ha.constant, hb.constant]
  · rw [dtype_add? h, dtype_add? h', ha.dtype]

/-- **Sums have forms on both sides or on neither**, in whatever order their terms are added. -/
theorem optionRel_add? (ha : Renumbered R a a') (hb : Renumbered R b b') (sign : Int) :
    Option.Rel (Renumbered R) (a.add? b sign) (a'.add? b' sign) :=
  optionRel_of_exists (fun _ h => ha.exists_add? hb h)
    (fun _ h => ha.symm.exists_add? hb.symm h) fun _ _ h h' => ha.add? hb h h'

private theorem exists_scale? (ha : Renumbered R a a') (h : a.scale? factor = some form) :
    ∃ form', a'.scale? factor = some form' := by
  obtain ⟨hcoeff, hconstant⟩ := inWord_of_scale? ha.normal h
  rw [ha.constant] at hconstant
  refine LinearForm.exists_scale? ha.normal' ?_ hconstant
  refine ha.coeff_right (P := fun c => InWord (factor * c)) hcoeff ?_
  rw [mul_zero]
  exact inWord_zero

private theorem scale? (ha : Renumbered R a a') (h : a.scale? factor = some form)
    (h' : a'.scale? factor = some form') : Renumbered R form form' := by
  refine ⟨ha.normal.scale? h, ha.normal'.scale? h', fun v v' hv => ?_, Over.scale? ha.left h,
    Over.scale? ha.right h', ?_, ?_⟩
  · rw [coeff_scale? h, coeff_scale? h', ha.coeff v v' hv]
  · rw [constant_scale? h, constant_scale? h', ha.constant]
  · rw [dtype_scale? h, dtype_scale? h', ha.dtype]

private theorem optionRel_scale? (ha : Renumbered R a a') (factor : Int) :
    Option.Rel (Renumbered R) (a.scale? factor) (a'.scale? factor) :=
  optionRel_of_exists (fun _ h => ha.exists_scale? h) (fun _ h => ha.symm.exists_scale? h)
    fun _ _ h h' => ha.scale? h h'

private theorem optionRel_mul? (ha : Renumbered R a a') (hb : Renumbered R b b') :
    Option.Rel (Renumbered R) (a.mul? b) (a'.mul? b') := by
  unfold LinearForm.mul?
  rw [← ha.const?_eq, ← hb.const?_eq]
  split
  · exact hb.optionRel_scale? _
  · exact ha.optionRel_scale? _
  · exact Option.Rel.none

end Renumbered

end LinearForm

/-! ### Simplified expressions -/

open LinearForm

namespace IndexExpr

/-- Simplified expressions that are built alike, from sums of which one is the other one
renumbered. -/
inductive Renumbered (R : SymId → SymId → Prop) : IndexExpr → IndexExpr → Prop where
  | linear {e e' : IndexExpr} {a a' : LinearForm} : ofExpr? e = some a → ofExpr? e' = some a' →
      a.toExpr = e → a'.toExpr = e' → a.Renumbered R a' → Renumbered R e e'
  | imm (n : Int) {t : DataType} : ofExpr? (.imm n t) = none →
      Renumbered R (.imm n t) (.imm n t)
  | var {v v' : SymVar} : ofExpr? (.var v) = none → ofExpr? (.var v') = none → v.Alike R v' →
      Renumbered R (.var v) (.var v')
  | unknown : Renumbered R .unknown .unknown
  | arith (op : ArithOp) {lhs lhs' rhs rhs' : IndexExpr} : ofExpr? (.arith op lhs rhs) = none →
      ofExpr? (.arith op lhs' rhs') = none → Renumbered R lhs lhs' → Renumbered R rhs rhs' →
      Renumbered R (.arith op lhs rhs) (.arith op lhs' rhs')
  | compare (op : CompareOp) {lhs lhs' rhs rhs' : IndexExpr} : Renumbered R lhs lhs' →
      Renumbered R rhs rhs' → Renumbered R (.compare op lhs rhs) (.compare op lhs' rhs')
  | and {lhs lhs' rhs rhs' : IndexExpr} : Renumbered R lhs lhs' → Renumbered R rhs rhs' →
      Renumbered R (.and lhs rhs) (.and lhs' rhs')
  | or {lhs lhs' rhs rhs' : IndexExpr} : Renumbered R lhs lhs' → Renumbered R rhs rhs' →
      Renumbered R (.or lhs rhs) (.or lhs' rhs')
  | not {operand operand' : IndexExpr} : Renumbered R operand operand' →
      Renumbered R (.not operand) (.not operand')

private theorem renumbered_imm (n : Int) (t : DataType) : Renumbered R (.imm n t) (.imm n t) := by
  by_cases ht : t.isInt = true
  · have hform : ofExpr? (.imm n t) = some (ofConst n t) := if_pos ht
    exact .linear hform hform rfl rfl (renumbered_ofConst n t)
  · exact .imm n (if_neg ht)

private theorem renumbered_var (hR : Relator.BiUnique R) {v v' : SymVar} (hv : v.Alike R v') :
    Renumbered R (.var v) (.var v') := by
  by_cases ht : v.dtype.isInt = true
  · have ht' : v'.dtype.isInt = true := hv.dtype ▸ ht
    exact .linear (if_pos ht) (if_pos ht') rfl rfl (renumbered_ofVar hR hv)
  · have ht' : ¬v'.dtype.isInt = true := hv.dtype ▸ ht
    exact .var (if_neg ht) (if_neg ht') hv

namespace Renumbered

variable {e e' d d' lhs lhs' rhs rhs' : IndexExpr}

/-- The same form is read off both, up to numbers. -/
private theorem optionRel_ofExpr? (h : Renumbered R e e') :
    Option.Rel (LinearForm.Renumbered R) (ofExpr? e) (ofExpr? e') := by
  cases h with
  | linear ha ha' _ _ h =>
    rw [ha, ha']
    exact Option.Rel.some h
  | imm n h =>
    rw [h]
    exact Option.Rel.none
  | var h h' =>
    rw [h, h']
    exact Option.Rel.none
  | arith op h h' =>
    rw [h, h']
    exact Option.Rel.none
  | unknown | compare | and | or | not => exact Option.Rel.none

/-- The same form is read off sums, differences and products of both. -/
private theorem optionRel_ofExpr?_arith (op : ArithOp) (hl : Renumbered R lhs lhs')
    (hr : Renumbered R rhs rhs') : Option.Rel (LinearForm.Renumbered R)
      (ofExpr? (.arith op lhs rhs)) (ofExpr? (.arith op lhs' rhs')) := by
  have hforms {g : LinearForm → LinearForm → Option LinearForm}
      (hg : ∀ a a' b b', LinearForm.Renumbered R a a' → LinearForm.Renumbered R b b' →
        Option.Rel (LinearForm.Renumbered R) (g a b) (g a' b')) :
      Option.Rel (LinearForm.Renumbered R)
        ((ofExpr? lhs).bind fun a => (ofExpr? rhs).bind fun b => g a b)
        ((ofExpr? lhs').bind fun a => (ofExpr? rhs').bind fun b => g a b) :=
    optionRel_bind hl.optionRel_ofExpr? fun a a' ha =>
      optionRel_bind hr.optionRel_ofExpr? fun b b' hb => hg a a' b b' ha hb
  cases op with
  | add => exact hforms fun _ _ _ _ ha hb => ha.optionRel_add? hb 1
  | sub => exact hforms fun _ _ _ _ ha hb => ha.optionRel_add? hb (-1)
  | mul => exact hforms fun _ _ _ _ ha hb => ha.optionRel_mul? hb
  | floorDiv | floorMod | min | max => exact Option.Rel.none

/-- Expressions are renumbered both ways. -/
theorem symm (h : Renumbered R e e') : Renumbered (flip R) e' e := by
  induction h with
  | linear ha ha' he he' h => exact .linear ha' ha he' he h.symm
  | imm n h => exact .imm n h
  | var h h' hv => exact .var h' h hv.flip
  | unknown => exact .unknown
  | arith op h h' _ _ ihl ihr => exact .arith op h' h ihl ihr
  | compare op _ _ ihl ihr => exact .compare op ihl ihr
  | and _ _ ihl ihr => exact .and ihl ihr
  | or _ _ ihl ihr => exact .or ihl ihr
  | not _ ih => exact .not ih

private theorem value?_eq (h : Renumbered R e e') : e.value? = e'.value? := by
  cases h with
  | @linear _ _ a a' _ _ he he' h =>
    subst he he'
    by_cases hnil : a.terms = []
    · have hnil' := h.terms_eq_nil hnil
      simp only [toExpr, hnil, hnil', value?, h.constant]
    · have hnil' : a'.terms ≠ [] := fun hnil' => hnil (h.symm.terms_eq_nil hnil')
      rw [value?_toExpr hnil, value?_toExpr hnil']
  | imm | var | unknown | arith | compare | and | or | not => rfl

private theorem hasUnknown_eq (h : Renumbered R e e') : e.hasUnknown = e'.hasUnknown := by
  induction h with
  | linear ha ha' => rw [hasUnknown_of_ofExpr? ha, hasUnknown_of_ofExpr? ha']
  | imm | var | unknown => rfl
  | arith _ _ _ _ _ ihl ihr => rw [hasUnknown, hasUnknown, ihl, ihr]
  | compare _ _ _ ihl ihr | and _ _ ihl ihr | or _ _ ihl ihr =>
    rw [hasUnknown, hasUnknown, ihl, ihr]
  | not _ ih => rw [hasUnknown, hasUnknown, ih]

/-- An expression is renumbered to one expression only. -/
private theorem unique (hR : Relator.BiUnique R) (h : Renumbered R e d) (h' : Renumbered R e d') :
    d = d' := by
  induction h generalizing d' with
  | linear ha _ _ hd h =>
    cases h' with
    | linear hb _ _ hd' h' =>
      obtain rfl := Option.some.inj (ha.symm.trans hb)
      rw [← hd, ← hd', h.unique h']
    | imm n hb | var hb | arith op hb => exact absurd (ha.symm.trans hb) (Option.some_ne_none _)
    | unknown | compare | and | or | not => cases ha
  | imm n hnone =>
    cases h' with
    | linear hb => exact absurd (hb.symm.trans hnone) (Option.some_ne_none _)
    | imm => rfl
  | var hnone _ hv =>
    cases h' with
    | linear hb => exact absurd (hb.symm.trans hnone) (Option.some_ne_none _)
    | var _ _ hv' => exact congrArg IndexExpr.var ((hv.eq_iff hR hv').mp rfl)
  | unknown =>
    cases h' with
    | linear hb => cases hb
    | unknown => rfl
  | arith op hnone _ _ _ ihl ihr =>
    cases h' with
    | linear hb => exact absurd (hb.symm.trans hnone) (Option.some_ne_none _)
    | arith _ _ _ hl hr => rw [ihl hl, ihr hr]
  | compare op _ _ ihl ihr =>
    cases h' with
    | linear hb => cases hb
    | compare _ hl hr => rw [ihl hl, ihr hr]
  | and _ _ ihl ihr =>
    cases h' with
    | linear hb => cases hb
    | and hl hr => rw [ihl hl, ihr hr]
  | or _ _ ihl ihr =>
    cases h' with
    | linear hb => cases hb
    | or hl hr => rw [ihl hl, ihr hr]
  | not _ ih =>
    cases h' with
    | linear hb => cases hb
    | not h => rw [ih h]

private theorem eq_iff (hR : Relator.BiUnique R) (h : Renumbered R e e') (h' : Renumbered R d d') :
    e = d ↔ e' = d' := by
  have hflip : Relator.BiUnique (flip R) :=
    ⟨fun _ _ _ h h' => hR.2 h h', fun _ _ _ h h' => hR.1 h h'⟩
  constructor
  · rintro rfl
    exact h.unique hR h'
  · rintro rfl
    exact h.symm.unique hflip h'.symm

/-! #### Steps of the simplifier -/

private theorem constantDifference?_eq (hl : Renumbered R lhs lhs') (hr : Renumbered R rhs rhs') :
    constantDifference? lhs rhs = constantDifference? lhs' rhs' := by
  refine eq_of_optionRel ?_
  refine optionRel_bind hl.optionRel_ofExpr? fun a a' ha => ?_
  refine optionRel_bind hr.optionRel_ofExpr? fun b b' hb => ?_
  refine optionRel_bind (ha.optionRel_add? hb (-1)) fun c c' hc => ?_
  rw [hc.const?_eq]
  exact optionRel_refl _

/-- Sums of operands of one element type are read back on both sides. -/
private theorem simplifyArith (op : ArithOp) (hl : Renumbered R lhs lhs')
    (hr : Renumbered R rhs rhs') (hdtype : lhs.dtype = lhs'.dtype)
    (hsum : (IndexExpr.arith op lhs rhs).WellTyped)
    (hsum' : (IndexExpr.arith op lhs' rhs').WellTyped) :
    Renumbered R (simplifyArith op lhs rhs) (simplifyArith op lhs' rhs') := by
  have hfold : foldArith? op lhs rhs = foldArith? op lhs' rhs' := by
    rw [foldArith?, foldArith?, hl.value?_eq, hr.value?_eq]
  rw [IndexExpr.simplifyArith, IndexExpr.simplifyArith, ← hfold, ← hdtype]
  split
  · exact renumbered_imm _ _
  · unfold linearize
    obtain ⟨hnone, hnone'⟩ | ⟨a, a', ha, ha', h⟩ :=
      optionRel_cases (hl.optionRel_ofExpr?_arith op hr)
    · rw [hnone, hnone']
      exact .arith op hnone hnone' hl hr
    · rw [ha, ha']
      exact .linear (ofExpr?_toExpr h.normal (typed_of_ofExpr? ha hsum).2)
        (ofExpr?_toExpr h.normal' (typed_of_ofExpr? ha' hsum').2) rfl rfl h

private theorem simplifyCompare (hR : Relator.BiUnique R) (op : CompareOp)
    (hl : Renumbered R lhs lhs') (hr : Renumbered R rhs rhs') :
    Renumbered R (simplifyCompare op lhs rhs) (simplifyCompare op lhs' rhs') := by
  have heq : lhs = rhs ↔ lhs' = rhs' := hl.eq_iff hR hr
  unfold IndexExpr.simplifyCompare
  rw [← hl.value?_eq, ← hr.value?_eq, ← hl.hasUnknown_eq, ← hr.hasUnknown_eq,
    ← hl.constantDifference?_eq hr]
  split
  · exact renumbered_imm _ _
  · split
    · exact .compare op hl hr
    · split
      · exact renumbered_imm _ _
      · by_cases hsame : lhs = rhs
        · rw [if_pos hsame, if_pos (heq.mp hsame)]
          exact renumbered_imm _ _
        · rw [if_neg hsame, if_neg fun h => hsame (heq.mpr h)]
          exact .compare op hl hr

private theorem simplifyAnd (hl : Renumbered R lhs lhs') (hr : Renumbered R rhs rhs') :
    Renumbered R (simplifyAnd lhs rhs) (simplifyAnd lhs' rhs') := by
  unfold IndexExpr.simplifyAnd
  rw [← hl.value?_eq, ← hr.value?_eq]
  split
  · exact renumbered_imm _ _
  · split
    · exact renumbered_imm _ _
    · exact hr
  · split
    · exact renumbered_imm _ _
    · exact hl
  · exact .and hl hr

private theorem simplifyOr (hl : Renumbered R lhs lhs') (hr : Renumbered R rhs rhs') :
    Renumbered R (simplifyOr lhs rhs) (simplifyOr lhs' rhs') := by
  unfold IndexExpr.simplifyOr
  rw [← hl.value?_eq, ← hr.value?_eq]
  split
  · exact renumbered_imm _ _
  · split
    · exact hr
    · exact renumbered_imm _ _
  · split
    · exact hl
    · exact renumbered_imm _ _
  · exact .or hl hr

private theorem simplifyNot (h : Renumbered R e e') :
    Renumbered R (simplifyNot e) (simplifyNot e') := by
  unfold IndexExpr.simplifyNot
  rw [← h.value?_eq]
  split
  · exact renumbered_imm _ _
  · exact .not h

end Renumbered

/-! ### From an expression to what it is simplified to -/

variable {e e' : IndexExpr} {known known' : Bindings}

private theorem Alike.wellTyped (h : e.Alike R e') (he : e.WellTyped) : e'.WellTyped := by
  induction h with
  | imm | unknown | var => trivial
  | arith op hl hr ihl ihr =>
    exact ⟨hl.dtype_eq.symm.trans (he.1.trans hr.dtype_eq), ihl he.2.1, ihr he.2.2⟩
  | compare op _ _ ihl ihr => exact ⟨ihl he.1, ihr he.2⟩
  | and hl hr ihl ihr | or hl hr ihl ihr =>
    obtain ⟨⟨hbl, hbr⟩, hwl, hwr⟩ := he
    exact ⟨⟨hl.dtype_eq.symm.trans hbl, hr.dtype_eq.symm.trans hbr⟩, ihl hwl, ihr hwr⟩
  | not _ ih => exact ih he

/-- **Well-typed expressions that correspond are simplified to expressions that are renumbered**, if
the same is known of variables that correspond. -/
theorem Alike.simplify (hR : Relator.BiUnique R)
    (hknown : ∀ v v', v.Alike R v' → known.value? v = known'.value? v') (h : e.Alike R e')
    (he : e.WellTyped) : Renumbered R (e.simplify known) (e'.simplify known') := by
  induction h with
  | imm n t => exact renumbered_imm n t
  | unknown => exact .unknown
  | @var v v' hv =>
    rw [IndexExpr.simplify, IndexExpr.simplify, ← hknown v v' hv, ← hv.dtype]
    split
    · exact renumbered_imm _ _
    · exact renumbered_var hR hv
  | @arith op lhs lhs' rhs rhs' hl hr ihl ihr =>
    have he' : (IndexExpr.arith op lhs' rhs').WellTyped := (Alike.arith op hl hr).wellTyped he
    have hsimplified {known : Bindings} {lhs rhs : IndexExpr}
        (h : (IndexExpr.arith op lhs rhs).WellTyped) :
        (IndexExpr.arith op (lhs.simplify known) (rhs.simplify known)).WellTyped :=
      ⟨h.2.1.simplify.1.trans (h.1.trans h.2.2.simplify.1.symm), h.2.1.simplify.2,
        h.2.2.simplify.2⟩
    have hdtype : (lhs.simplify known).dtype = (lhs'.simplify known').dtype := by
      rw [he.2.1.simplify.1, he'.2.1.simplify.1, hl.dtype_eq]
    exact (ihl he.2.1).simplifyArith op (ihr he.2.2) hdtype (hsimplified he) (hsimplified he')
  | compare op _ _ ihl ihr => exact (ihl he.1).simplifyCompare hR op (ihr he.2)
  | and _ _ ihl ihr => exact (ihl he.2.1).simplifyAnd (ihr he.2.2)
  | or _ _ ihl ihr => exact (ihl he.2.1).simplifyOr (ihr he.2.2)
  | not _ ih => exact (ih he).simplifyNot

/-- Whether the expression is proved does not depend on the numbers of its variables. -/
def Steady (e : IndexExpr) : Prop :=
  ∀ (R : SymId → SymId → Prop) (e' : IndexExpr), Relator.BiUnique R → e.Alike R e' →
    e.proves [] = e'.proves []

/-- **Well-typed guards are steady.** -/
theorem WellTyped.steady (he : e.WellTyped) : e.Steady := by
  intro R e' hR h
  have hsimplified : Renumbered R (e.simplify []) (e'.simplify []) :=
    h.simplify hR (fun _ _ _ => rfl) he
  rw [proves, proves, hsimplified.value?_eq]

/-- Half of a sum, rounded up, written in two ways. -/
def roundedHalves (lhs rhs : IndexExpr) : IndexExpr :=
  let sum : IndexExpr := .arith .add lhs rhs
  .compare .eq (.arith .floorDiv (.arith .add sum (.imm 1 .int32)) (.imm 2 .int32))
    (.arith .floorDiv (.arith .add (.imm 1 .int32) sum) (.imm 2 .int32))

/-- Where the element types differ, a sum that was written in the type of its first operand is read
back in the type of the variable that comes first. So it depends on the numbers whether both ways
are read back alike. -/
example :
    let guard (i j : SymId) : IndexExpr :=
      roundedHalves (.var ⟨i, "a", .int32⟩) (.var ⟨j, "m", .int64⟩)
    (guard 0 1).proves [] = true ∧ (guard 1 0).proves [] = false := by
  decide

end IndexExpr

end TensorLowering
