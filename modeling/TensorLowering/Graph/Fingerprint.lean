import TensorLowering.Graph.Expr

/-!
# Fingerprints of functions

The fingerprint of a function is a list of tokens that does not show how its variables are
called. A parameter or local definition is replaced by its number in the order of binding, and an
inner node that occurs again by its number in the order of first visits; variables and constants
are written out wherever they occur, whether or not their node is shared. Variables that are not
bound keep their identity.
-/

namespace TensorLowering

/-- A part of a fingerprint. -/
inductive Token where
  /-- The start of a function of so many parameters. -/
  | function (params : Nat)
  /-- A parameter. -/
  | param (type : Ty)
  /-- The declared return type, at the end. -/
  | returns (type : Ty)
  /-- An occurrence of the variable bound by a number. -/
  | bound (index : Nat)
  /-- An occurrence of a variable that is not bound. -/
  | free (id : Nat)
  /-- A constant. -/
  | const (type : TensorType) (data : List UInt8)
  /-- A call; so many arguments follow. -/
  | call (op : String) (attrs : Attrs) (arity : Nat) (type : Ty)
  /-- A tuple; so many fields follow. -/
  | tuple (fields : Nat)
  /-- A projection; the tuple follows. -/
  | proj (index : Nat)
  /-- A local definition; its value and its body follow. -/
  | letIn (type : Ty)
  /-- The inner node that was visited under a number. -/
  | shared (index : Nat)
deriving DecidableEq

/-- What an encoding has come to. -/
structure Encoding where
  /-- The tokens, last one first. -/
  reversed : List Token
  /-- The number under which a variable is bound; each variable stands here once. -/
  bound : List (Nat × Nat)
  /-- The number under which an inner node was visited. -/
  visited : List (Nat × Nat)

namespace Encoding

/-- The encoding of nothing. -/
def empty : Encoding := ⟨[], [], []⟩

/-- Write a token. -/
def emit (s : Encoding) (t : Token) : Encoding := { s with reversed := t :: s.reversed }

/-- Bind a variable under the number of variables bound before. -/
def bind (s : Encoding) (id : Nat) : Encoding :=
  { s with bound := (id, s.bound.length) :: s.bound.filter (·.1 ≠ id) }

/-- Give an inner node its number. -/
def visit (s : Encoding) (id : Nat) : Encoding :=
  { s with visited := (id, s.visited.length) :: s.visited }

/-- How an occurrence of a variable is written. -/
def occurrence (s : Encoding) (v : Var) : Token :=
  match s.bound.lookup v.id with
  | some index => .bound index
  | none => .free v.id

mutual

/-- Encode an expression. -/
def encode (s : Encoding) : Expr → Encoding
  | .var _ v => s.emit (s.occurrence v)
  | .const _ t data => s.emit (.const t data)
  | .call id op attrs args t =>
    match s.visited.lookup id with
    | some index => s.emit (.shared index)
    | none => encodeAll ((s.visit id).emit (.call op attrs args.length t)) args
  | .tuple id fields =>
    match s.visited.lookup id with
    | some index => s.emit (.shared index)
    | none => encodeAll ((s.visit id).emit (.tuple fields.length)) fields
  | .proj id e i =>
    match s.visited.lookup id with
    | some index => s.emit (.shared index)
    | none => encode ((s.visit id).emit (.proj i)) e
  | .letIn id v value body =>
    match s.visited.lookup id with
    | some index => s.emit (.shared index)
    | none => encode ((encode ((s.visit id).emit (.letIn v.type)) value).bind v.id) body

/-- Encode several expressions, one after the other. -/
def encodeAll (s : Encoding) : List Expr → Encoding
  | [] => s
  | e :: es => encodeAll (encode s e) es

end

/-- Bind a parameter. -/
def param (s : Encoding) (v : Var) : Encoding := (s.bind v.id).emit (.param v.type)

end Encoding

/-- What is left of a function when the names of its variables are forgotten. -/
structure Fingerprint where
  /-- The tokens in order. -/
  tokens : List Token
deriving DecidableEq

/-- The fingerprint of a function. -/
def Function.fingerprint (f : Function) : Fingerprint :=
  let start := Encoding.empty.emit (.function f.params.length)
  let body := (f.params.foldl Encoding.param start).encode f.body
  ⟨(body.emit (.returns f.returnType)).reversed.reverse⟩

end TensorLowering
