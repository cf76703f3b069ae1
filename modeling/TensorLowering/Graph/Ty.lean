import TensorLowering.Index.Expr
import TensorLowering.Text.Quoted

/-!
# Types of graph expressions

A value is a tensor, a tuple of values, or a handle that the lowering passes around without
looking into it. `Ty.leaves` lists the tensors a value is made of, in depth-first order; handles
contribute none. `Ty.field` is the type of a projection and `Ty.along` that of a chain of them.
-/

namespace TensorLowering

/-- The type of a tensor: its dimensions and element type. -/
structure TensorType where
  /-- The extent of each dimension. -/
  shape : List IndexExpr
  /-- The type of the elements. -/
  dtype : DataType
deriving DecidableEq, Repr, Inhabited

namespace TensorType

/-- The number of dimensions. -/
def rank (t : TensorType) : Nat := t.shape.length

/-- Whether an unknown dimension occurs. -/
def hasUnknown (t : TensorType) : Bool := t.shape.any IndexExpr.hasUnknown

/-- The text of a tensor type. -/
def text (t : TensorType) : String :=
  "Tensor[(" ++ Text.commaSeparated (t.shape.map IndexExpr.text) ++ "), " ++ t.dtype.text ++ "]"

end TensorType

/-- The type of a graph expression. -/
inductive Ty where
  /-- A tensor. -/
  | tensor (type : TensorType)
  /-- A tuple of values. -/
  | tuple (fields : List Ty)
  /-- A value that is no tensor, such as a storage handle. -/
  | handle (name : String)
deriving Repr

namespace Ty

instance : Inhabited Ty := ⟨.tuple []⟩

/-! ### Equality -/

mutual

/-- Equality of types is decided from the outside in. -/
def decEq : (a b : Ty) → Decidable (a = b)
  | .tensor s, .tensor t =>
    if h : s = t then .isTrue (h ▸ rfl) else .isFalse fun e => h (Ty.tensor.inj e)
  | .tuple as, .tuple bs =>
    match decEqList as bs with
    | .isTrue h => .isTrue (h ▸ rfl)
    | .isFalse h => .isFalse fun e => h (Ty.tuple.inj e)
  | .handle s, .handle t =>
    if h : s = t then .isTrue (h ▸ rfl) else .isFalse fun e => h (Ty.handle.inj e)
  | .tensor _, .tuple _ | .tensor _, .handle _ | .tuple _, .tensor _ | .tuple _, .handle _
  | .handle _, .tensor _ | .handle _, .tuple _ => .isFalse fun e => by cases e

/-- Equality of lists of types. -/
def decEqList : (as bs : List Ty) → Decidable (as = bs)
  | [], [] => .isTrue rfl
  | [], _ :: _ | _ :: _, [] => .isFalse fun e => by cases e
  | a :: as, b :: bs =>
    match decEq a b, decEqList as bs with
    | .isTrue h, .isTrue hs => .isTrue (h ▸ hs ▸ rfl)
    | .isFalse h, _ => .isFalse fun e => h (List.cons.inj e).1
    | _, .isFalse hs => .isFalse fun e => hs (List.cons.inj e).2

end

instance : DecidableEq Ty := decEq

/-! ### Parts of a type -/

mutual

/-- Whether an unknown dimension occurs anywhere in the type. -/
def hasUnknown : Ty → Bool
  | .tensor t => t.hasUnknown
  | .tuple fields => hasUnknownList fields
  | .handle _ => false

/-- Whether an unknown dimension occurs in one of the types. -/
def hasUnknownList : List Ty → Bool
  | [] => false
  | t :: ts => t.hasUnknown || hasUnknownList ts

end

mutual

/-- The tensors a value of the type is made of, in depth-first order. -/
def leaves : Ty → List TensorType
  | .tensor t => [t]
  | .tuple fields => leavesList fields
  | .handle _ => []

/-- The tensors of several values, one after the other. -/
def leavesList : List Ty → List TensorType
  | [] => []
  | t :: ts => t.leaves ++ leavesList ts

end

/-- The type of a projection. Where there is no such field the type is the empty tuple. -/
def field (t : Ty) (index : Nat) : Ty :=
  match t with
  | .tuple fields => fields[index]?.getD (.tuple [])
  | .tensor _ | .handle _ => .tuple []

/-- The type at the end of a chain of projections. -/
def along (t : Ty) (path : List Nat) : Ty := path.foldl field t

/-! ### Text -/

mutual

/-- The text of a type. -/
def text : Ty → String
  | .tensor t => t.text
  | .tuple fields => "(" ++ Text.commaSeparated (textList fields) ++ ")"
  | .handle name => name

/-- The texts of several types. -/
def textList : List Ty → List String
  | [] => []
  | t :: ts => t.text :: textList ts

end

end Ty

end TensorLowering
