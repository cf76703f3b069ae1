import TensorLowering.Graph.Ty
import TensorLowering.Tensor.Basic

/-!
# Templates

A template is an index expression with holes, written down before the call it is used for is
known. It is filled in within a *scope*: the attributes and inputs of a call and the tensors of
its result. Besides these, a template may ask for a variable that is new each time it is filled.
-/

namespace TensorLowering.Session

/-- An index expression with holes. -/
inductive Template where
  /-- An expression that needs no scope. -/
  | expr (e : IndexExpr)
  /-- A new variable each time. -/
  | fresh (name : String) (dtype : DataType)
  /-- A dimension of an input. -/
  | dim (input axis : Nat)
  /-- A dimension of a tensor of the result. -/
  | out (leaf axis : Nat)
  /-- An attribute that is an integer. -/
  | attr (key : String)
  | arith (op : ArithOp) (lhs rhs : Template)
  | compare (op : CompareOp) (lhs rhs : Template)
  | and (lhs rhs : Template)
  | or (lhs rhs : Template)
  | not (operand : Template)
deriving Inhabited

/-- What templates are filled in from. -/
structure Scope where
  attrs : Attrs
  inputs : List Tensor
  leaves : List TensorType

/-- The scope without anything in it. -/
def Scope.empty : Scope := ⟨.empty, [], []⟩

/-- What a scope may lack. -/
inductive Missing where
  | dim | out | attr | input | output
deriving DecidableEq, Repr

/-- The wording of what is missing. -/
def Missing.message : Missing → String
  | .dim => "missing dim"
  | .out => "missing out"
  | .attr => "missing attr"
  | .input => "missing input"
  | .output => "missing output"

/-- Something that is there, or the fact that it is missing. -/
def Missing.orElse {α : Type} (why : Missing) : Option α → Except Missing α
  | some a => .ok a
  | none => .error why

namespace Template

/-- Fill in a template. The numbers of new variables are drawn from `lots`, where `next` draws were
made before; how many draws were made in the end is returned. -/
def fill (scope : Scope) (next : Nat) (t : Template) (lots : Nat → Nat := SymId.scattered) :
    Except Missing (IndexExpr × Nat) :=
  match t with
  | .expr e => .ok (e, next)
  | .fresh name dtype => .ok (.var ⟨⟨lots next, next⟩, name, dtype⟩, next + 1)
  | .dim input axis => do
    let e ← Missing.dim.orElse (scope.inputs[input]?.bind fun t => t.shape[axis]?)
    return (e, next)
  | .out leaf axis => do
    let e ← Missing.out.orElse (scope.leaves[leaf]?.bind fun t => t.shape[axis]?)
    return (e, next)
  | .attr key => do
    let n ← Missing.attr.orElse (Attrs.int? scope.attrs key)
    return (.ofInt n, next)
  | .arith op lhs rhs => do
    let (lhs, next) ← fill scope next lhs lots
    let (rhs, next) ← fill scope next rhs lots
    return (.arith op lhs rhs, next)
  | .compare op lhs rhs => do
    let (lhs, next) ← fill scope next lhs lots
    let (rhs, next) ← fill scope next rhs lots
    return (.compare op lhs rhs, next)
  | .and lhs rhs => do
    let (lhs, next) ← fill scope next lhs lots
    let (rhs, next) ← fill scope next rhs lots
    return (.and lhs rhs, next)
  | .or lhs rhs => do
    let (lhs, next) ← fill scope next lhs lots
    let (rhs, next) ← fill scope next rhs lots
    return (.or lhs rhs, next)
  | .not operand => do
    let (operand, next) ← fill scope next operand lots
    return (.not operand, next)

/-- Fill in several templates in order. -/
def fillAll (scope : Scope) (next : Nat) (ts : List Template)
    (lots : Nat → Nat := SymId.scattered) : Except Missing (List IndexExpr × Nat) :=
  match ts with
  | [] => .ok ([], next)
  | t :: ts => do
    let (e, next) ← fill scope next t lots
    let (es, next) ← fillAll scope next ts lots
    return (e :: es, next)

end Template

/-- A type whose dimensions are templates. -/
inductive TypeTemplate where
  | tensor (shape : List Template) (dtype : DataType)
  | tuple (fields : List TypeTemplate)
  | handle (name : String)
deriving Inhabited

namespace TypeTemplate

mutual

/-- Fill in the templates of a type. -/
def fill (scope : Scope) (next : Nat) (t : TypeTemplate) (lots : Nat → Nat := SymId.scattered) :
    Except Missing (Ty × Nat) :=
  match t with
  | .tensor shape dtype => do
    let (shape, next) ← Template.fillAll scope next shape lots
    return (.tensor ⟨shape, dtype⟩, next)
  | .tuple fields => do
    let (fields, next) ← fillAll scope next fields lots
    return (.tuple fields, next)
  | .handle name => .ok (.handle name, next)

/-- Fill in the templates of several types in order. -/
def fillAll (scope : Scope) (next : Nat) (ts : List TypeTemplate)
    (lots : Nat → Nat := SymId.scattered) : Except Missing (List Ty × Nat) :=
  match ts with
  | [] => .ok ([], next)
  | t :: ts => do
    let (t, next) ← fill scope next t lots
    let (ts, next) ← fillAll scope next ts lots
    return (t :: ts, next)

end

end TypeTemplate

end TensorLowering.Session
