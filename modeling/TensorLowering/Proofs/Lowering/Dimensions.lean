import TensorLowering.Proofs.Lowering.Quiet

/-!
# Normal dimensions

A list of dimensions has a normal form unless one of them is a number that does not fit into 32
bits; the first such number is what a fault tells. In the normal form an unknown dimension is a
variable of its own: its number is the next one plus the number of unknown dimensions before it
(`IndexExpr.normalForms`). Types (`Ty.normalizes_normalize`) and the placeholders of parameters
(`Walk.checks_bindParams`) follow their dimensions, from left to right.
-/

namespace TensorLowering

open TensorLowering.Action

variable {σ α β : Type}

/-! ### Normal forms -/

namespace IndexExpr

/-- The value of a dimension that is a number and does not fit into 32 bits. -/
def overflow? : IndexExpr → Option Int
  | .imm n _ => if InHalfWord n then none else some n
  | .var _ | .unknown | .arith .. | .compare .. | .and .. | .or .. | .not _ => none

/-- Whether a dimension is unknown. -/
def isUnknown : IndexExpr → Bool
  | .unknown => true
  | .imm .. | .var _ | .arith .. | .compare .. | .and .. | .or .. | .not _ => false

/-- The normal form of a dimension that fits, with the number for an unknown one. -/
def normalForm (number : SymId) : IndexExpr → IndexExpr
  | .imm n _ => .imm n .int32
  | .unknown => .var (unknownDimension number)
  | e => e

/-- How many numbers some dimensions take. -/
def unknowns (dims : List IndexExpr) : Nat := dims.countP isUnknown

/-- The normal forms of dimensions that fit. -/
def normalForms (lots : Nat → Nat) (next : Nat) : List IndexExpr → List IndexExpr
  | [] => []
  | e :: es => e.normalForm ⟨lots next, next⟩ :: normalForms lots (next + unknowns [e]) es

/-- The unknown ones among two lists are those of the first and those of the second. -/
theorem unknowns_append (ds es : List IndexExpr) :
    unknowns (ds ++ es) = unknowns ds + unknowns es :=
  List.countP_append

private theorem normalForms_append (lots : Nat → Nat) (next : Nat) (ds es : List IndexExpr) :
    normalForms lots next (ds ++ es) =
      normalForms lots next ds ++ normalForms lots (next + unknowns ds) es := by
  induction ds generalizing next with
  | nil => rfl
  | cons d ds ih =>
    have hcons : unknowns (d :: ds) = unknowns [d] + unknowns ds := unknowns_append [d] ds
    rw [List.cons_append, normalForms, normalForms, ih, hcons, Nat.add_assoc, List.cons_append]

/-- The number for an unknown dimension is drawn after those for the unknown ones before it. -/
theorem getElem?_normalForms (lots : Nat → Nat) (next : Nat) (dims : List IndexExpr) (j : Nat) :
    (normalForms lots next dims)[j]? =
      dims[j]?.map (normalForm
        ⟨lots (next + unknowns (dims.take j)), next + unknowns (dims.take j)⟩) := by
  induction dims generalizing next j with
  | nil => rfl
  | cons e es ih =>
    cases j with
    | zero => rfl
    | succ j =>
      have hcons : unknowns (e :: es.take j) = unknowns [e] + unknowns (es.take j) :=
        unknowns_append [e] _
      rw [normalForms, List.getElem?_cons_succ, List.getElem?_cons_succ, List.take_succ_cons, ih,
        hcons, Nat.add_assoc]

end IndexExpr

open IndexExpr

/-! ### Normalizing -/

/-- Some dimensions are normalized from the next number on, and what comes of it has a property; or
the first of them that does not fit is told. -/
inductive Normalizes (dims : List IndexExpr) (P : α → Prop) (next : Nat) :
    Except Fault (α × Nat) → Prop where
  | ok {a : α} : dims.findSome? overflow? = none → P a →
      Normalizes dims P next (.ok (a, next + unknowns dims))
  | overflow {v : Int} : dims.findSome? overflow? = some v →
      Normalizes dims P next (.error (.dimensionOverflow v))

section

variable {P : α → Prop} {Q : β → Prop} {ds es : List IndexExpr} {lots : Nat → Nat} {next : Nat}

/-- Where there are no dimensions no number is taken. -/
theorem Normalizes.pure {a : α} (h : P a) : Normalizes [] P next (.ok (a, next)) := .ok rfl h

/-- If it ends well, then all dimensions fit, and the unknown ones have taken numbers. -/
theorem Normalizes.of_ok {a : α} {n : Nat} (h : Normalizes ds P next (.ok (a, n))) :
    ds.findSome? overflow? = none ∧ P a ∧ n = next + unknowns ds := by
  cases h with
  | ok hfit ha => exact ⟨hfit, ha, rfl⟩

/-- What is normalized next goes on from the number that was left. -/
theorem Normalizes.bind {r : Except Fault (α × Nat)} {f : α × Nat → Except Fault (β × Nat)}
    (h : Normalizes ds P next r)
    (hf : ∀ a, P a → Normalizes es Q (next + unknowns ds) (f (a, next + unknowns ds))) :
    Normalizes (ds ++ es) Q next (r >>= f) := by
  cases h with
  | overflow hv => exact .overflow (by rw [List.findSome?_append, hv, Option.some_or])
  | @ok a hfit ha =>
    change Normalizes (ds ++ es) Q next (f (a, next + unknowns ds))
    have hrest := hf a ha
    generalize f (a, next + unknowns ds) = r' at hrest
    cases hrest with
    | overflow hv => exact .overflow (by rw [List.findSome?_append, hfit, hv, Option.none_or])
    | ok hfit' hb =>
      rw [Nat.add_assoc, ← unknowns_append]
      exact .ok (by rw [List.findSome?_append, hfit, hfit', Option.none_or]) hb

/-- What is made of the result takes no number. -/
theorem Normalizes.map {r : Except Fault (α × Nat)} {g : α → β} (h : Normalizes ds P next r)
    (hg : ∀ a, P a → Q (g a)) : Normalizes ds Q next (r >>= fun p => .ok (g p.1, p.2)) := by
  have hbind := h.bind (f := fun p => .ok (g p.1, p.2)) fun a ha => .pure (hg a ha)
  rwa [List.append_nil] at hbind

private theorem normalizes_normalizeDim (lots : Nat → Nat) (next : Nat) (e : IndexExpr) :
    Normalizes [e] (fun d => d = e.normalForm ⟨lots next, next⟩) next
      (normalizeDim lots next e) := by
  cases e with
  | imm n t =>
    rw [normalizeDim]
    split
    · next h => exact .ok (by simp [overflow?, h]) rfl
    · next h => exact .overflow (by simp [overflow?, h])
  | var | unknown | arith | compare | and | or | not => exact .ok rfl rfl

/-- A shape becomes the list of its normal forms. -/
theorem normalizes_normalizeShape (lots : Nat → Nat) (next : Nat) (dims : List IndexExpr) :
    Normalizes dims (fun ds => ds = normalForms lots next dims) next
      (normalizeShape next dims lots) := by
  induction dims generalizing next with
  | nil => exact .pure rfl
  | cons e es ih =>
    refine (normalizes_normalizeDim lots next e).bind fun d hd => ?_
    refine (ih (next + unknowns [e])).map fun ds hds => ?_
    rw [hd, hds, normalForms]

private theorem TensorType.normalizes_normalize (lots : Nat → Nat) (next : Nat) (t : TensorType) :
    Normalizes t.shape (fun u => u = ⟨normalForms lots next t.shape, t.dtype⟩) next
      (t.normalize lots next) := by
  have h := normalizes_normalizeShape lots next t.shape
  rw [TensorType.normalize]
  generalize normalizeShape next t.shape lots = r at h
  cases h with
  | ok hfit hshape => exact .ok hfit (by rw [hshape])
  | overflow hv => exact .overflow hv

/-- The dimensions of a field that is a tensor. -/
def Ty.fieldDims : Ty → List IndexExpr
  | .tensor t => t.shape
  | .tuple _ | .handle _ => []

/-- The dimensions of a type that are normalized: those of a tensor, or of the tensors directly in a
tuple. -/
def Ty.dims : Ty → List IndexExpr
  | .tensor t => t.shape
  | .tuple fields => fields.flatMap Ty.fieldDims
  | .handle _ => []

private theorem normalizes_normalizeFields (lots : Nat → Nat) (next : Nat) (fields : List Ty) :
    Normalizes (fields.flatMap Ty.fieldDims)
      (fun fs => fs.flatMap Ty.fieldDims = normalForms lots next (fields.flatMap Ty.fieldDims)) next
      (normalizeFields lots next fields) := by
  induction fields generalizing next with
  | nil => exact .pure rfl
  | cons field fields ih =>
    -- only a field that is a tensor has dimensions; any other one is kept
    cases field with
    | tensor t =>
      refine (TensorType.normalizes_normalize lots next t).bind fun u hu => ?_
      refine (ih (next + unknowns t.shape)).map fun fs hfs => ?_
      rw [List.flatMap_cons, List.flatMap_cons, hfs, hu]
      exact (normalForms_append lots next t.shape _).symm
    | tuple | handle => exact (ih next).map fun fs hfs => hfs

/-- **The normal form of a type** is that of its dimensions. -/
theorem Ty.normalizes_normalize (lots : Nat → Nat) (next : Nat) (t : Ty) :
    Normalizes t.dims (fun u => u.dims = normalForms lots next t.dims) next
      (t.normalize lots next) := by
  cases t with
  | tensor t =>
    refine (TensorType.normalizes_normalize lots next t).map fun u hu => ?_
    rw [hu]
    rfl
  | tuple fields => exact (normalizes_normalizeFields lots next fields).map fun fs hfs => hfs
  | handle name => exact .pure rfl

/-- A type is rejected just for its first dimension that does not fit. -/
theorem Ty.normalize_eq_error_iff {t : Ty} {e : Fault} : t.normalize lots next = .error e ↔
    ∃ v, t.dims.findSome? overflow? = some v ∧ e = .dimensionOverflow v := by
  have h := t.normalizes_normalize lots next
  generalize t.normalize lots next = r at h
  cases h with
  | ok hfit _ =>
    refine iff_of_false nofun ?_
    rintro ⟨v, hv, -⟩
    rw [hfit] at hv
    cases hv
  | @overflow v hv =>
    rw [Except.error.injEq, hv]
    constructor
    · rintro rfl
      exact ⟨v, rfl, rfl⟩
    · rintro ⟨v', hv', rfl⟩
      obtain rfl := Option.some.inj hv'
      rfl

/-! ### Placeholders -/

/-- An action that fails on the first of some dimensions that does not fit, and on nothing else. -/
def Action.Checks (dims : List IndexExpr) (x : Action σ α) : Prop :=
  ∀ m, match dims.findSome? overflow? with
    | some v => (x m).1 = .fault (.dimensionOverflow v)
    | none => ∃ a, (x m).1 = .ok a

theorem Action.Checks.pure (a : α) : Checks [] (Pure.pure a : Action σ α) := fun _ => ⟨a, rfl⟩

/-- Dimensions that are checked one after the other are checked in that order. -/
theorem Action.Checks.bind {x : Action σ α} {f : α → Action σ β} (hx : Checks ds x)
    (hf : ∀ a, Checks es (f a)) : Checks (ds ++ es) (x >>= f) := by
  intro m
  have hfirst := hx m
  have hrun : (x >>= f) m = Action.bind x f m := rfl
  rw [hrun, List.findSome?_append]
  unfold Action.bind
  rcases hxm : x m with ⟨o, n⟩
  rw [hxm] at hfirst
  cases hds : ds.findSome? overflow? with
  | some v =>
    rw [hds] at hfirst
    obtain rfl : o = .fault (.dimensionOverflow v) := hfirst
    rfl
  | none =>
    rw [hds] at hfirst
    obtain ⟨a, rfl⟩ : ∃ a, o = .ok a := hfirst
    exact hf a n

/-- What goes on without looking at dimensions. -/
theorem Action.Checks.bind_pure {x : Action σ α} (hx : Checks ds x) (g : α → β) :
    Checks ds (x >>= fun a => Pure.pure (g a)) := by
  have hboth := hx.bind fun a => Checks.pure (g a)
  rwa [List.append_nil] at hboth

private theorem checks_takeNumbers {P : (Nat → Nat) → Nat → α → Prop}
    {f : (Nat → Nat) → Nat → Except Fault (α × Nat)}
    (h : ∀ lots next, Normalizes ds (P lots next) next (f lots next)) :
    Checks ds (takeNumbers f : Action σ α) := by
  intro m
  have hrun := h m.lots m.next
  unfold takeNumbers
  generalize f m.lots m.next = r at hrun
  cases hrun with
  | ok hfit _ =>
    rw [hfit]
    exact ⟨_, rfl⟩
  | overflow hv =>
    rw [hv]

private theorem checks_placeholder (name : String) (shape : List IndexExpr) (dtype : DataType) :
    Checks [] (placeholder name shape dtype : Action σ Tensor) := fun _ => ⟨_, rfl⟩

/-- The placeholder of a normalized shape. -/
private theorem checks_normalized (name : String) (t : TensorType) :
    Checks t.shape (takeNumbers (fun lots next => normalizeShape next t.shape lots) >>= fun shape =>
      placeholder name shape t.dtype : Action σ Tensor) := by
  have hshape : Checks t.shape (takeNumbers fun lots next => normalizeShape next t.shape lots :
      Action σ (List IndexExpr)) :=
    checks_takeNumbers fun lots next => normalizes_normalizeShape lots next t.shape
  have hboth := hshape.bind fun shape => checks_placeholder name shape t.dtype
  rwa [List.append_nil] at hboth

end

section

variable {w : Walk σ}

private theorem checks_inputTensors (name : String) (ts : List TensorType) :
    Checks (ts.flatMap TensorType.shape)
      (inputTensors .values name ts : Action σ (List Tensor)) := by
  induction ts with
  | nil => exact .pure []
  | cons t ts ih => exact (checks_normalized name t).bind fun first => ih.bind_pure _

/-- The placeholder of a constant checks the dimensions of its type. -/
theorem checks_constantTensor (t : TensorType) :
    Checks t.shape (constantTensor .values t : Action σ Tensor) :=
  checks_normalized "compile_engine_const" t

/-- The dimensions of the tensors of a parameter. -/
def Var.dims (v : Var) : List IndexExpr := v.type.leaves.flatMap TensorType.shape

/-- The dimensions of the tensors of the parameters, from left to right. -/
def Function.paramDims (f : Function) : List IndexExpr := f.params.flatMap Var.dims

/-- **Binding parameters** fails on the first dimension that does not fit, and on nothing else. -/
theorem Walk.checks_bindParams (hw : w.aspect = .values) (vs : List Var) (s : Progress) :
    Checks (vs.flatMap Var.dims) (w.bindParams s vs) := by
  induction vs generalizing s with
  | nil => exact .pure _
  | cons v vs ih =>
    rw [Walk.bindParams, hw]
    exact (checks_inputTensors v.name v.type.leaves).bind fun ts => (ih (s.bind v ts)).bind_pure _

/-- For shapes no dimension is looked at. -/
private theorem checks_inputTensors_shapes (name : String) (ts : List TensorType) :
    Checks [] (inputTensors .shapes name ts : Action σ (List Tensor)) := by
  induction ts with
  | nil => exact .pure []
  | cons t ts ih =>
    exact (checks_placeholder name (shapeExtent t.rank) .int64).bind fun first => ih.bind_pure _

/-- Where shapes are lowered, no dimension of a parameter is checked. -/
theorem Walk.checks_bindParams_shapes (hw : w.aspect = .shapes) (vs : List Var) (s : Progress) :
    Checks [] (w.bindParams s vs) := by
  induction vs generalizing s with
  | nil => exact .pure _
  | cons v vs ih =>
    rw [Walk.bindParams, hw]
    refine (checks_inputTensors_shapes v.name v.type.leaves).bind fun ts => ?_
    exact (ih (s.bind v ts)).bind_pure _

end

end TensorLowering
