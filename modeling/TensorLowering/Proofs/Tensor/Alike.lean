import TensorLowering.Graph.Ty
import TensorLowering.Proofs.Index.Alike
import TensorLowering.Proofs.Tensor.Unfolding

/-!
# Types and tensors that look alike

Two lowerings of one function make different tensors, which yet look alike when they are unfolded
(`Tensor.Alike`): they have dimensions that correspond, the same element type and the same kind of
computation, and are computed from tensors that look alike. Their own numbers and their names are
not looked at, but a placeholder that was made for a parameter stands for that parameter, which is
known by its position.

Of tensors that look alike, the same workload is found (`nearestWorkload?_eq_of_alike`).
-/

namespace TensorLowering

/-! ### Types -/

/-- Tensor types of one element type whose dimensions correspond. -/
structure TensorType.Alike (R : SymId → SymId → Prop) (t t' : TensorType) : Prop where
  shape : List.Forall₂ (IndexExpr.Alike R) t.shape t'.shape
  dtype : t.dtype = t'.dtype

mutual

/-- Types that differ in nothing but the numbers of symbolic variables, which correspond. -/
def Ty.Alike (R : SymId → SymId → Prop) : Ty → Ty → Prop
  | .tensor t, .tensor t' => t.Alike R t'
  | .tuple fields, .tuple fields' => Ty.AlikeAll R fields fields'
  | .handle name, .handle name' => name = name'
  | .tensor _, .tuple _ | .tensor _, .handle _ | .tuple _, .tensor _ | .tuple _, .handle _
  | .handle _, .tensor _ | .handle _, .tuple _ => False

/-- The same for lists of types of one length. -/
def Ty.AlikeAll (R : SymId → SymId → Prop) : List Ty → List Ty → Prop
  | [], [] => True
  | t :: ts, t' :: ts' => Ty.Alike R t t' ∧ Ty.AlikeAll R ts ts'
  | [], _ :: _ | _ :: _, [] => False

end

/-- The numbers of all symbolic variables of the expression were among the first `b` that were
drawn. -/
def IndexExpr.Below (b : Nat) : IndexExpr → Prop
  | .imm .. | .unknown => True
  | .var v => v.id.draw < b
  | .arith _ lhs rhs | .compare _ lhs rhs | .and lhs rhs | .or lhs rhs =>
    Below b lhs ∧ Below b rhs
  | .not operand => Below b operand

/-- The numbers of all symbolic variables of the type were among the first `b` that were drawn. -/
def TensorType.Below (b : Nat) (t : TensorType) : Prop := ∀ e ∈ t.shape, e.Below b

/-- The numbers of all symbolic variables of the type were among the first `b` that were drawn. -/
def Ty.Below (b : Nat) (t : Ty) : Prop := ∀ leaf ∈ t.leaves, leaf.Below b

section

variable {R S : SymId → SymId → Prop} {b : Nat}

/-- Shapes stay alike if more numbers correspond. -/
theorem forall₂_alike_mono {shape shape' : List IndexExpr} (hRS : ∀ i j, R i j → S i j)
    (h : List.Forall₂ (IndexExpr.Alike R) shape shape') :
    List.Forall₂ (IndexExpr.Alike S) shape shape' :=
  h.imp fun _ _ he => he.mono hRS

/-- An expression corresponds to itself if its variables do. -/
theorem IndexExpr.Below.alike (hR : ∀ i : SymId, i.draw < b → R i i) {e : IndexExpr}
    (h : e.Below b) : e.Alike R e := by
  induction e with
  | imm n t => exact .imm n t
  | unknown => exact .unknown
  | var v => exact .var ⟨hR v.id h, rfl, rfl⟩
  | arith op lhs rhs ihl ihr => exact .arith op (ihl h.1) (ihr h.2)
  | compare op lhs rhs ihl ihr => exact .compare op (ihl h.1) (ihr h.2)
  | and lhs rhs ihl ihr => exact .and (ihl h.1) (ihr h.2)
  | or lhs rhs ihl ihr => exact .or (ihl h.1) (ihr h.2)
  | not operand ih => exact .not (ih h)

/-- A type whose variables correspond to themselves is like itself. -/
theorem TensorType.Below.alike (hR : ∀ i : SymId, i.draw < b → R i i) {t : TensorType}
    (h : t.Below b) : t.Alike R t :=
  ⟨List.forall₂_same.mpr fun e he => (h e he).alike hR, rfl⟩

mutual

/-- The same for a type that may have several tensors. -/
theorem Ty.Below.alike (hR : ∀ i : SymId, i.draw < b → R i i) : (t : Ty) → t.Below b → t.Alike R t
  | .tensor t, h => TensorType.Below.alike hR (h t List.mem_cons_self)
  | .tuple fields, h => Ty.Below.alikeAll hR fields h
  | .handle _, _ => rfl

theorem Ty.Below.alikeAll (hR : ∀ i : SymId, i.draw < b → R i i) : (ts : List Ty) →
    (∀ leaf ∈ Ty.leavesList ts, leaf.Below b) → Ty.AlikeAll R ts ts
  | [], _ => trivial
  | t :: ts, h => by
    rw [Ty.leavesList, List.forall_mem_append] at h
    exact ⟨Ty.Below.alike hR t h.1, Ty.Below.alikeAll hR ts h.2⟩

end

mutual

/-- Types stay alike if more numbers correspond. -/
theorem Ty.Alike.mono (hRS : ∀ i j, R i j → S i j) : (t t' : Ty) → t.Alike R t' → t.Alike S t'
  | .tensor _, .tensor _, h => ⟨forall₂_alike_mono hRS h.shape, h.dtype⟩
  | .tuple fields, .tuple fields', h => Ty.AlikeAll.mono hRS fields fields' h
  | .handle _, .handle _, h => h

theorem Ty.AlikeAll.mono (hRS : ∀ i j, R i j → S i j) : (ts ts' : List Ty) →
    Ty.AlikeAll R ts ts' → Ty.AlikeAll S ts ts'
  | [], [], _ => trivial
  | t :: ts, t' :: ts', h => ⟨Ty.Alike.mono hRS t t' h.1, Ty.AlikeAll.mono hRS ts ts' h.2⟩

end

mutual

/-- Types that correspond are made of tensors that do. -/
theorem Ty.Alike.leaves : (t t' : Ty) → t.Alike R t' →
    List.Forall₂ (TensorType.Alike R) t.leaves t'.leaves
  | .tensor _, .tensor _, h => List.Forall₂.cons h List.Forall₂.nil
  | .tuple fields, .tuple fields', h => Ty.AlikeAll.leaves fields fields' h
  | .handle _, .handle _, _ => List.Forall₂.nil

theorem Ty.AlikeAll.leaves : (ts ts' : List Ty) → Ty.AlikeAll R ts ts' →
    List.Forall₂ (TensorType.Alike R) (Ty.leavesList ts) (Ty.leavesList ts')
  | [], [], _ => List.Forall₂.nil
  | t :: ts, t' :: ts', h =>
    List.rel_append (Ty.Alike.leaves t t' h.1) (Ty.AlikeAll.leaves ts ts' h.2)

end

end

/-! ### Tensors -/

mutual

/-- Tensors that look alike when they are unfolded. The variables that correspond are those of
`R`; `params` and `params'` are the numbers of the placeholders of parameters, in their order. -/
def Tensor.Alike (R : SymId → SymId → Prop) (params params' : List Nat) : Tensor → Tensor → Prop
  | .placeholder id _ shape dtype, .placeholder id' _ shape' dtype' =>
    params.idxOf? id = params'.idxOf? id' ∧ List.Forall₂ (IndexExpr.Alike R) shape shape' ∧
      dtype = dtype'
  | .computed _ _ shape dtype tag inputs workload,
    .computed _ _ shape' dtype' tag' inputs' workload' =>
    List.Forall₂ (IndexExpr.Alike R) shape shape' ∧ dtype = dtype' ∧ tag = tag' ∧
      workload = workload' ∧ Tensor.AlikeAll R params params' inputs inputs'
  | .placeholder .., .computed .. | .computed .., .placeholder .. => False

/-- The same for lists of tensors of one length. -/
def Tensor.AlikeAll (R : SymId → SymId → Prop) (params params' : List Nat) :
    List Tensor → List Tensor → Prop
  | [], [] => True
  | t :: ts, t' :: ts' =>
    Tensor.Alike R params params' t t' ∧ Tensor.AlikeAll R params params' ts ts'
  | [], _ :: _ | _ :: _, [] => False

end

namespace Tensor

variable {R S : SymId → SymId → Prop} {params params' : List Nat}

/-- Lists are alike just if they are so place by place. -/
theorem alikeAll_iff {ts ts' : List Tensor} :
    AlikeAll R params params' ts ts' ↔ List.Forall₂ (Tensor.Alike R params params') ts ts' := by
  induction ts generalizing ts' with
  | nil => cases ts' <;> simp [AlikeAll]
  | cons t ts ih => cases ts' <;> simp [AlikeAll, ih]

mutual

/-- Tensors stay alike if more numbers correspond. -/
theorem Alike.mono (hRS : ∀ i j, R i j → S i j) : (t t' : Tensor) →
    Tensor.Alike R params params' t t' → Tensor.Alike S params params' t t'
  | .placeholder .., .placeholder .., ⟨hid, hshape, hdtype⟩ =>
    ⟨hid, forall₂_alike_mono hRS hshape, hdtype⟩
  | .computed _ _ _ _ _ inputs _, .computed _ _ _ _ _ inputs' _,
    ⟨hshape, hdtype, htag, hworkload, hinputs⟩ =>
    ⟨forall₂_alike_mono hRS hshape, hdtype, htag, hworkload,
      AlikeAll.mono hRS inputs inputs' hinputs⟩

theorem AlikeAll.mono (hRS : ∀ i j, R i j → S i j) : (ts ts' : List Tensor) →
    AlikeAll R params params' ts ts' → AlikeAll S params params' ts ts'
  | [], [], _ => trivial
  | t :: ts, t' :: ts', h => ⟨Alike.mono hRS t t' h.1, AlikeAll.mono hRS ts ts' h.2⟩

end

mutual

/-- Tensors are alike both ways. -/
theorem Alike.symm (hRS : ∀ i j, R i j → S j i) : (t t' : Tensor) →
    Tensor.Alike R params params' t t' → Tensor.Alike S params' params t' t
  | .placeholder .., .placeholder .., ⟨hid, hshape, hdtype⟩ =>
    ⟨hid.symm, (hshape.imp fun _ _ he => he.symm hRS).flip, hdtype.symm⟩
  | .computed _ _ _ _ _ inputs _, .computed _ _ _ _ _ inputs' _,
    ⟨hshape, hdtype, htag, hworkload, hinputs⟩ =>
    ⟨(hshape.imp fun _ _ he => he.symm hRS).flip, hdtype.symm, htag.symm, hworkload.symm,
      AlikeAll.symm hRS inputs inputs' hinputs⟩

theorem AlikeAll.symm (hRS : ∀ i j, R i j → S j i) : (ts ts' : List Tensor) →
    AlikeAll R params params' ts ts' → AlikeAll S params' params ts' ts
  | [], [], _ => trivial
  | t :: ts, t' :: ts', h => ⟨Alike.symm hRS t t' h.1, AlikeAll.symm hRS ts ts' h.2⟩

end

mutual

/-- Tensors that are alike to one in the middle are alike. -/
theorem Alike.trans {T : SymId → SymId → Prop} {params'' : List Nat}
    (hT : ∀ i j l, R i j → S j l → T i l) : (t t' t'' : Tensor) →
    Tensor.Alike R params params' t t' → Tensor.Alike S params' params'' t' t'' →
      Tensor.Alike T params params'' t t''
  | .placeholder .., .placeholder .., .placeholder .., h, h' =>
    ⟨h.1.trans h'.1, forall₂_trans (fun _ _ _ he he' => he.trans hT he') h.2.1 h'.2.1,
      h.2.2.trans h'.2.2⟩
  | .computed _ _ _ _ _ inputs _, .computed _ _ _ _ _ inputs' _, .computed _ _ _ _ _ inputs'' _,
    ⟨hshape, hdtype, htag, hworkload, hinputs⟩, ⟨hshape', hdtype', htag', hworkload', hinputs'⟩ =>
    ⟨forall₂_trans (fun _ _ _ he he' => he.trans hT he') hshape hshape', hdtype.trans hdtype',
      htag.trans htag', hworkload.trans hworkload',
      AlikeAll.trans hT inputs inputs' inputs'' hinputs hinputs'⟩

theorem AlikeAll.trans {T : SymId → SymId → Prop} {params'' : List Nat}
    (hT : ∀ i j l, R i j → S j l → T i l) : (ts ts' ts'' : List Tensor) →
    AlikeAll R params params' ts ts' → AlikeAll S params' params'' ts' ts'' →
      AlikeAll T params params'' ts ts''
  | [], [], [], _, _ => trivial
  | t :: ts, t' :: ts', t'' :: ts'', h, h' =>
    ⟨Alike.trans hT t t' t'' h.1 h'.1, AlikeAll.trans hT ts ts' ts'' h.2 h'.2⟩

end

private theorem Alike.inputs : (t t' : Tensor) → Tensor.Alike R params params' t t' →
    List.Forall₂ (Tensor.Alike R params params') t.inputs t'.inputs
  | .placeholder .., .placeholder .., _ => List.Forall₂.nil
  | .computed .., .computed .., h => alikeAll_iff.mp h.2.2.2.2

/-- Tensors that are alike have shapes that are. -/
theorem Alike.shape : (t t' : Tensor) → Tensor.Alike R params params' t t' →
    List.Forall₂ (IndexExpr.Alike R) t.shape t'.shape
  | .placeholder .., .placeholder .., h => h.2.1
  | .computed .., .computed .., h => h.1

private theorem Alike.workload?_eq : (t t' : Tensor) → Tensor.Alike R params params' t t' →
    t.workload? = t'.workload?
  | .placeholder .., .placeholder .., _ => rfl
  | .computed .., .computed .., h => h.2.2.2.1

end Tensor

/-! ### Workloads -/

variable {R : SymId → SymId → Prop} {params params' : List Nat}

private theorem findSome?_workload?_eq {level level' : List Tensor}
    (h : List.Forall₂ (Tensor.Alike R params params') level level') :
    level.findSome? Tensor.workload? = level'.findSome? Tensor.workload? := by
  induction h with
  | nil => rfl
  | cons ht _ ih => rw [List.findSome?_cons, List.findSome?_cons, ht.workload?_eq, ih]

private theorem unfoldedSearch_eq {level level' : List Tensor}
    (h : List.Forall₂ (Tensor.Alike R params params') level level') :
    unfoldedSearch level = unfoldedSearch level' := by
  have hnext : List.Forall₂ (Tensor.Alike R params params') (inputsOf level) (inputsOf level') :=
    List.rel_flatMap h fun t t' ht => ht.inputs
  rw [unfoldedSearch.eq_def level, unfoldedSearch.eq_def level', findSome?_workload?_eq h]
  split
  · rfl
  · by_cases hne : inputsOf level = []
    · have hne' : inputsOf level' = [] := by
        rw [hne] at hnext
        exact List.forall₂_nil_left_iff.mp hnext
      rw [dif_pos hne, dif_pos hne']
    · have hne' : inputsOf level' ≠ [] := by
        intro hnil
        rw [hnil] at hnext
        exact hne (List.forall₂_nil_right_iff.mp hnext)
      have hlt := heightList_inputsOf_lt hne
      rw [dif_neg hne, dif_neg hne']
      exact unfoldedSearch_eq hnext
termination_by Tensor.heightList level

/-- **What looks alike has the same workload behind it**, however much of it is shared. -/
theorem nearestWorkload?_eq_of_alike {r r' : Register} {outputs outputs' : List Tensor}
    (hmade : ∀ t ∈ outputs, r.made t) (hmade' : ∀ t ∈ outputs', r'.made t)
    (h : List.Forall₂ (Tensor.Alike R params params') outputs outputs') :
    nearestWorkload? outputs = nearestWorkload? outputs' := by
  rw [nearestWorkload?_eq_unfoldedSearch r hmade, nearestWorkload?_eq_unfoldedSearch r' hmade',
    unfoldedSearch_eq h]

end TensorLowering
