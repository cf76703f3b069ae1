import TensorLowering.Fault

/-!
# Normal dimensions

Types come with `int64` dimensions and unknown ones. Before a function is lowered its dimensions
are brought into a normal form: a number becomes an `int32` immediate and has to fit, an unknown
dimension becomes a variable of its own, and any other expression stays. The numbers of new
variables are drawn from `lots`, where `next` draws were made before; the functions return how many
draws were made in the end.
-/

namespace TensorLowering

/-- The number fits into 32 bits. -/
abbrev InHalfWord (n : Int) : Prop := -2147483648 ≤ n ∧ n < 2147483648

/-- The variable that stands for an unknown dimension. -/
def unknownDimension (id : SymId) : SymVar := ⟨id, "any_dim", .int32⟩

/-- The normal form of one dimension. -/
def normalizeDim (lots : Nat → Nat) (next : Nat) : IndexExpr → Except Fault (IndexExpr × Nat)
  | .imm n _ =>
    if InHalfWord n then .ok (.imm n .int32, next) else .error (.dimensionOverflow n)
  | .unknown => .ok (.var (unknownDimension ⟨lots next, next⟩), next + 1)
  | e => .ok (e, next)

/-- The normal form of a list of dimensions. -/
def normalizeShape (next : Nat) (shape : List IndexExpr) (lots : Nat → Nat := SymId.scattered) :
    Except Fault (List IndexExpr × Nat) :=
  match shape with
  | [] => .ok ([], next)
  | e :: es => do
    let (e, next) ← normalizeDim lots next e
    let (es, next) ← normalizeShape next es lots
    return (e :: es, next)

/-- The normal form of a tensor type. -/
def TensorType.normalize (lots : Nat → Nat) (next : Nat) (t : TensorType) :
    Except Fault (TensorType × Nat) := do
  let (shape, next) ← normalizeShape next t.shape lots
  return (⟨shape, t.dtype⟩, next)

/-- The normal form of the fields of a tuple: only fields that are tensors change. -/
def normalizeFields (lots : Nat → Nat) (next : Nat) : List Ty → Except Fault (List Ty × Nat)
  | [] => .ok ([], next)
  | .tensor t :: fields => do
    let (t, next) ← t.normalize lots next
    let (fields, next) ← normalizeFields lots next fields
    return (.tensor t :: fields, next)
  | field :: fields => do
    let (fields, next) ← normalizeFields lots next fields
    return (field :: fields, next)

/-- The normal form of the type of a call: that of a tensor, or of the tensors directly in a
tuple. -/
def Ty.normalize (lots : Nat → Nat) (next : Nat) : Ty → Except Fault (Ty × Nat)
  | .tensor t => do
    let (t, next) ← t.normalize lots next
    return (.tensor t, next)
  | .tuple fields => do
    let (fields, next) ← normalizeFields lots next fields
    return (.tuple fields, next)
  | .handle name => .ok (.handle name, next)

end TensorLowering
