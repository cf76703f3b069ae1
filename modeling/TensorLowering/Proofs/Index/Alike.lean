import TensorLowering.Index.Simplify
import Mathlib.Data.List.Forall2
import Mathlib.Logic.Relator

/-!
# Index expressions over other numbers

Two lowerings of one function draw different numbers for the symbolic variables they make. What is
known of the numbers is that none is drawn twice, so those of the two lowerings correspond one to
one; which one of two numbers comes before the other is a matter of chance on both sides. Index
expressions correspond if one arises from the other by a change of numbers (`IndexExpr.Alike`).
-/

namespace TensorLowering

/-! ### Values that may be missing, and lists -/

section

variable {α β γ δ : Type} {P : α → β → Prop} {Q : γ → δ → Prop} {o : Option α} {o' : Option β}

/-- What is done with values that may be missing keeps them related. -/
theorem optionRel_bind {f : α → Option γ} {g : β → Option δ} (h : Option.Rel P o o')
    (hfg : ∀ a b, P a b → Option.Rel Q (f a) (g b)) : Option.Rel Q (o.bind f) (o'.bind g) := by
  cases h with
  | some hab => exact hfg _ _ hab
  | none => exact Option.Rel.none

/-- Related values are missing together. -/
theorem optionRel_cases (h : Option.Rel P o o') :
    (o = none ∧ o' = none) ∨ ∃ a b, o = some a ∧ o' = some b ∧ P a b := by
  cases h with
  | some hab => exact Or.inr ⟨_, _, rfl, rfl, hab⟩
  | none => exact Or.inl ⟨rfl, rfl⟩

/-- Values are the same if they are related by equality. -/
theorem eq_of_optionRel {o o' : Option α} (h : Option.Rel (· = ·) o o') : o = o' := by
  cases h with
  | some h => exact congrArg Option.some h
  | none => rfl

theorem optionRel_refl (o : Option α) : Option.Rel (· = ·) o o := by
  cases o with
  | some a => exact Option.Rel.some rfl
  | none => exact Option.Rel.none

/-- What is related to what is related, element by element. -/
theorem forall₂_trans {R : α → β → Prop} {S : β → γ → Prop} {T : α → γ → Prop}
    (hT : ∀ a b c, R a b → S b c → T a c) {as : List α} {bs : List β} {cs : List γ}
    (h : List.Forall₂ R as bs) (h' : List.Forall₂ S bs cs) : List.Forall₂ T as cs := by
  induction h generalizing cs with
  | nil =>
    obtain rfl := List.forall₂_nil_left_iff.mp h'
    exact List.Forall₂.nil
  | cons hab _ ih =>
    obtain ⟨c, cs, hbc, hrest, rfl⟩ := List.forall₂_cons_left_iff.mp h'
    exact List.Forall₂.cons (hT _ _ _ hab hbc) (ih hrest)

end

/-! ### Variables -/

/-- The variables differ in nothing but their numbers, which correspond. -/
structure SymVar.Alike (R : SymId → SymId → Prop) (v v' : SymVar) : Prop where
  number : R v.id v'.id
  name : v.name = v'.name
  dtype : v.dtype = v'.dtype

namespace SymVar.Alike

variable {R : SymId → SymId → Prop} {v v' w w' : SymVar}

/-- Under a correspondence that is one to one, variables are told apart on both sides. -/
theorem eq_iff (hR : Relator.BiUnique R) (hv : v.Alike R v') (hw : w.Alike R w') :
    v = w ↔ v' = w' := by
  have hid : v.id = w.id ↔ v'.id = w'.id := by
    constructor
    · intro heq
      exact hR.2 hv.number (heq ▸ hw.number)
    · intro heq
      exact hR.1 hv.number (heq ▸ hw.number)
  obtain ⟨i, name, dtype⟩ := v
  obtain ⟨i', name', dtype'⟩ := v'
  obtain rfl : name = name' := hv.name
  obtain rfl : dtype = dtype' := hv.dtype
  obtain ⟨j, name', dtype'⟩ := w
  obtain ⟨j', name'', dtype''⟩ := w'
  obtain rfl : name' = name'' := hw.name
  obtain rfl : dtype' = dtype'' := hw.dtype
  rw [SymVar.mk.injEq, SymVar.mk.injEq]
  exact and_congr_left' hid

end SymVar.Alike

/-! ### Expressions -/

/-- The expressions differ in nothing but the numbers of their variables, which correspond. -/
inductive IndexExpr.Alike (R : SymId → SymId → Prop) : IndexExpr → IndexExpr → Prop where
  | imm (n : Int) (t : DataType) : Alike R (.imm n t) (.imm n t)
  | var {v v' : SymVar} : v.Alike R v' → Alike R (.var v) (.var v')
  | unknown : Alike R .unknown .unknown
  | arith (op : ArithOp) {lhs lhs' rhs rhs' : IndexExpr} : Alike R lhs lhs' → Alike R rhs rhs' →
      Alike R (.arith op lhs rhs) (.arith op lhs' rhs')
  | compare (op : CompareOp) {lhs lhs' rhs rhs' : IndexExpr} : Alike R lhs lhs' →
      Alike R rhs rhs' → Alike R (.compare op lhs rhs) (.compare op lhs' rhs')
  | and {lhs lhs' rhs rhs' : IndexExpr} : Alike R lhs lhs' → Alike R rhs rhs' →
      Alike R (.and lhs rhs) (.and lhs' rhs')
  | or {lhs lhs' rhs rhs' : IndexExpr} : Alike R lhs lhs' → Alike R rhs rhs' →
      Alike R (.or lhs rhs) (.or lhs' rhs')
  | not {operand operand' : IndexExpr} : Alike R operand operand' →
      Alike R (.not operand) (.not operand')

namespace IndexExpr.Alike

variable {R S : SymId → SymId → Prop} {e e' d d' : IndexExpr}

/-- Expressions stay alike if more numbers correspond. -/
theorem mono (hRS : ∀ i j, R i j → S i j) (h : e.Alike R e') : e.Alike S e' := by
  induction h with
  | imm n t => exact imm n t
  | var hv => exact var ⟨hRS _ _ hv.number, hv.name, hv.dtype⟩
  | unknown => exact unknown
  | arith op _ _ ihl ihr => exact arith op ihl ihr
  | compare op _ _ ihl ihr => exact compare op ihl ihr
  | and _ _ ihl ihr => exact and ihl ihr
  | or _ _ ihl ihr => exact or ihl ihr
  | not _ ih => exact not ih

/-- Expressions are alike both ways. -/
theorem symm (hRS : ∀ i j, R i j → S j i) (h : e.Alike R e') : e'.Alike S e := by
  induction h with
  | imm n t => exact imm n t
  | var hv => exact var ⟨hRS _ _ hv.number, hv.name.symm, hv.dtype.symm⟩
  | unknown => exact unknown
  | arith op _ _ ihl ihr => exact arith op ihl ihr
  | compare op _ _ ihl ihr => exact compare op ihl ihr
  | and _ _ ihl ihr => exact and ihl ihr
  | or _ _ ihl ihr => exact or ihl ihr
  | not _ ih => exact not ih

/-- Expressions that are alike to one in the middle are alike. -/
theorem trans {T : SymId → SymId → Prop} (hT : ∀ i j l, R i j → S j l → T i l) (h : e.Alike R d)
    (h' : d.Alike S e') : e.Alike T e' := by
  induction h generalizing e' with
  | imm n t => cases h' with | imm => exact imm n t
  | var hv =>
    cases h' with
    | var hv' =>
      exact var ⟨hT _ _ _ hv.number hv'.number, hv.name.trans hv'.name, hv.dtype.trans hv'.dtype⟩
  | unknown => cases h' with | unknown => exact unknown
  | arith op _ _ ihl ihr => cases h' with | arith _ hl hr => exact arith op (ihl hl) (ihr hr)
  | compare op _ _ ihl ihr => cases h' with | compare _ hl hr => exact compare op (ihl hl) (ihr hr)
  | and _ _ ihl ihr => cases h' with | and hl hr => exact and (ihl hl) (ihr hr)
  | or _ _ ihl ihr => cases h' with | or hl hr => exact or (ihl hl) (ihr hr)
  | not _ ih => cases h' with | not h => exact not (ih h)

/-- If only equal numbers correspond, expressions that do are equal. -/
theorem eq_of_numbers (hR : ∀ i j, R i j → i = j) (h : e.Alike R e') : e = e' := by
  induction h with
  | imm | unknown => rfl
  | @var v v' hv =>
    obtain ⟨i, name, dtype⟩ := v
    obtain ⟨i', name', dtype'⟩ := v'
    obtain rfl : i = i' := hR i i' hv.number
    obtain rfl : name = name' := hv.name
    obtain rfl : dtype = dtype' := hv.dtype
    rfl
  | arith _ _ _ ihl ihr | compare _ _ _ ihl ihr | and _ _ ihl ihr | or _ _ ihl ihr => rw [ihl, ihr]
  | not _ ih => rw [ih]

/-- Expressions that are alike have one element type. -/
theorem dtype_eq (h : e.Alike R e') : e.dtype = e'.dtype := by
  induction h with
  | imm | unknown | compare | and | or | not => rfl
  | var hv => exact hv.dtype
  | arith op _ _ ihl _ => exact ihl

end IndexExpr.Alike

end TensorLowering
