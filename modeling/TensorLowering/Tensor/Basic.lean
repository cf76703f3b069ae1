import TensorLowering.Index.Expr
import TensorLowering.Tensor.Workload

/-!
# Tensors

A tensor describes a value: its dimensions, element type and where it comes from. It is either a
*placeholder*, supplied from outside, or *computed* from other tensors. Every tensor has a number
of its own, by which it is told apart from a tensor of the same description; tensors form an
acyclic graph through the inputs they are computed from.
-/

namespace TensorLowering

/-- A tensor with its number. -/
inductive Tensor where
  /-- A value supplied from outside. -/
  | placeholder (id : Nat) (name : String) (shape : List IndexExpr) (dtype : DataType)
  /-- A value computed from other tensors. The tag says by what kind of computation, and the
  workload by which tunable one. -/
  | computed (id : Nat) (name : String) (shape : List IndexExpr) (dtype : DataType)
      (tag : String) (inputs : List Tensor) (workload : Option Workload)

namespace Tensor

instance : Inhabited Tensor := ⟨.placeholder 0 "" [] .bool⟩

/-- The number of a tensor. -/
def id : Tensor → Nat
  | .placeholder id .. | .computed id .. => id

/-- The name of a tensor. -/
def name : Tensor → String
  | .placeholder _ name .. | .computed _ name .. => name

/-- The dimensions of a tensor. -/
def shape : Tensor → List IndexExpr
  | .placeholder _ _ shape _ | .computed _ _ shape .. => shape

/-- The element type of a tensor. -/
def dtype : Tensor → DataType
  | .placeholder _ _ _ dtype | .computed _ _ _ dtype .. => dtype

/-- The number of dimensions. -/
def rank (t : Tensor) : Nat := t.shape.length

/-- Whether a tensor is supplied from outside. -/
def isPlaceholder : Tensor → Bool
  | .placeholder .. => true
  | .computed .. => false

/-- The tensors a tensor is computed from. -/
def inputs : Tensor → List Tensor
  | .placeholder .. => []
  | .computed _ _ _ _ _ inputs _ => inputs

/-- The workload a computed tensor is annotated with. -/
def workload? : Tensor → Option Workload
  | .placeholder .. => none
  | .computed _ _ _ _ _ _ workload => workload

/-- The extents of a tensor, if all of them are numbers. -/
def extents? (t : Tensor) : Option (List Int) := t.shape.mapM IndexExpr.value?

/-- The text of a tensor. -/
def text (t : Tensor) : String :=
  "Tensor(name=" ++ t.name ++ ", shape=[" ++ Text.commaSeparated (t.shape.map IndexExpr.text)
    ++ "], dtype=" ++ t.dtype.text ++ ")"

/-- A computed tensor annotated with a workload, as a new tensor of number `id`. A placeholder is
not computed by anything and stays as it is. -/
def annotate (t : Tensor) (w : Workload) (id : Nat) : Tensor :=
  match t with
  | .placeholder .. => t
  | .computed _ name shape dtype tag inputs _ => .computed id name shape dtype tag inputs (some w)

end Tensor

/-- The workload that uses a template on tensors. There is none when an extent is symbolic, since
records exist for known extents only. -/
def Workload.ofTensors? (name : String) (tensors : List Tensor) : Option Workload :=
  let arg? := fun (t : Tensor) => t.extents?.map fun shape => WorkloadArg.tensor shape t.dtype
  (tensors.mapM arg?).map fun args => ⟨name, args⟩

end TensorLowering
