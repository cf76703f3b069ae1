import TensorLowering.Attrs
import TensorLowering.Graph.Ty

/-!
# Graph expressions

A function body is a graph of operator calls, tuples, projections and local definitions over
variables and constants. Nodes may be shared: every node carries the number by which it is told
apart, and two occurrences with one number are the same node.

`Expr.type` is the type of an expression. It is found by following chains of projections down
to the node that makes the tuple (`Expr.typeAlong`), so a graph with much sharing is not unfolded
for it; `Expr.type` obeys the equations that one expects of a type (`type_tuple`, `type_proj`,
`type_letIn`).
-/

namespace TensorLowering

/-- A variable of a function: a parameter or a local definition. -/
structure Var where
  /-- The number by which the variable is told apart. -/
  id : Nat
  /-- The name shown for the variable. -/
  name : String
  /-- The declared type. -/
  type : Ty
deriving DecidableEq, Repr, Inhabited

/-- A node of a graph, with its number and what it is made from. -/
inductive Expr where
  /-- An occurrence of a variable. -/
  | var (id : Nat) (v : Var)
  /-- A tensor known in advance, with its bytes. -/
  | const (id : Nat) (type : TensorType) (data : List UInt8)
  /-- A call of an operator, with the type of its result. -/
  | call (id : Nat) (op : String) (attrs : Attrs) (args : List Expr) (type : Ty)
  /-- A tuple. -/
  | tuple (id : Nat) (fields : List Expr)
  /-- A field of a tuple. -/
  | proj (id : Nat) (tuple : Expr) (index : Nat)
  /-- A local definition and the expression it is made for. -/
  | letIn (id : Nat) (v : Var) (value body : Expr)

namespace Expr

instance : Inhabited Expr := ⟨.tuple 0 []⟩

/-- The number of a node. -/
def id : Expr → Nat
  | .var id _ | .const id _ _ | .call id .. | .tuple id _ | .proj id _ _ | .letIn id .. => id

mutual

/-- The type at the end of a chain of projections out of an expression. -/
def typeAlong (path : List Nat) : Expr → Ty
  | .var _ v => v.type.along path
  | .const _ t _ => (Ty.tensor t).along path
  | .call _ _ _ _ t => t.along path
  | .tuple _ fields =>
    match path with
    | [] => .tuple (typesOf fields)
    | i :: path => typeOfField path i fields
  | .proj _ e i => typeAlong (i :: path) e
  | .letIn _ _ _ body => typeAlong path body

/-- The types of several expressions. -/
def typesOf : List Expr → List Ty
  | [] => []
  | e :: es => typeAlong [] e :: typesOf es

/-- The type at the end of a chain of projections out of the field of a number. -/
def typeOfField (path : List Nat) (i : Nat) : List Expr → Ty
  | [] => (Ty.tuple []).along path
  | e :: es =>
    match i with
    | 0 => typeAlong path e
    | i + 1 => typeOfField path i es

end

/-- The type of an expression. -/
def type (e : Expr) : Ty := e.typeAlong []

@[simp] theorem type_var (id : Nat) (v : Var) : (Expr.var id v).type = v.type := rfl

@[simp] theorem type_const (id : Nat) (t : TensorType) (data : List UInt8) :
    (Expr.const id t data).type = .tensor t := rfl

@[simp] theorem type_call (id : Nat) (op : String) (attrs : Attrs) (args : List Expr) (t : Ty) :
    (Expr.call id op attrs args t).type = t := rfl

@[simp] theorem type_letIn (id : Nat) (v : Var) (value body : Expr) :
    (Expr.letIn id v value body).type = body.type := rfl

private theorem typesOf_eq_map (es : List Expr) : typesOf es = es.map type := by
  induction es with
  | nil => rfl
  | cons e es ih => rw [typesOf, ih]; rfl

@[simp] theorem type_tuple (id : Nat) (fields : List Expr) :
    (Expr.tuple id fields).type = .tuple (fields.map type) := by
  rw [← typesOf_eq_map]
  rfl

mutual

/-- A chain of projections out of an expression has the type found along it. -/
theorem typeAlong_eq_along (path : List Nat) : (e : Expr) → e.typeAlong path = e.type.along path
  | .var .. | .const .. | .call .. => rfl
  | .tuple _ fields => by
    cases path with
    | nil => rfl
    | cons i path => exact typeOfField_eq_along path i fields
  | .proj _ e i => by
    change typeAlong (i :: path) e = Ty.along (typeAlong [i] e) path
    rw [typeAlong_eq_along (i :: path) e, typeAlong_eq_along [i] e]
    rfl
  | .letIn _ _ _ body => typeAlong_eq_along path body

/-- The same for the field of a number among several. -/
theorem typeOfField_eq_along (path : List Nat) (i : Nat) : (es : List Expr) →
    typeOfField path i es = ((Ty.tuple (typesOf es)).field i).along path
  | [] => rfl
  | e :: es => by
    cases i with
    | zero => exact typeAlong_eq_along path e
    | succ i => exact typeOfField_eq_along path i es

end

@[simp] theorem type_proj (id : Nat) (e : Expr) (i : Nat) :
    (Expr.proj id e i).type = e.type.field i :=
  typeAlong_eq_along [i] e

end Expr

/-- A function: its parameters, its body and the type it is said to return. -/
structure Function where
  /-- The parameters in order. -/
  params : List Var
  /-- The expression that is computed. -/
  body : Expr
  /-- The type of the result, as declared. -/
  returnType : Ty
deriving Inhabited

/-- The function of a body, returning what the body returns. -/
def Function.ofBody (params : List Var) (body : Expr) : Function := ⟨params, body, body.type⟩

end TensorLowering
