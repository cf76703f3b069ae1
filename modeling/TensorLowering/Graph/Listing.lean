import TensorLowering.Graph.Expr

/-!
# Listings of functions

A function is shown as a listing: one line for each call, tuple and projection, which gives the
result a number, and one line for each local definition. A node that was given a number is later
referred to by it. Operands are results of earlier lines, variables and constants.
-/

namespace TensorLowering

/-- What a line refers to. -/
inductive Operand where
  /-- The result of a numbered line. -/
  | result (number : Nat)
  /-- A variable, by its name. -/
  | variable (name : String)
  /-- A constant, by its type. -/
  | constant (type : TensorType)
deriving DecidableEq, Repr

/-- The text of an operand. -/
def Operand.text : Operand → String
  | .result n => "%" ++ toString n
  | .variable name => "%" ++ name
  | .constant t => "meta[Constant](" ++ t.text ++ ")"

/-- How the result of a numbered line is made. -/
inductive Step where
  /-- A call of an operator. -/
  | call (op : String) (args : List Operand) (attrs : Attrs)
  /-- A tuple. -/
  | tuple (fields : List Operand)
  /-- A field of a tuple. -/
  | proj (tuple : Operand) (index : Nat)
deriving DecidableEq

/-- The text of a step; attributes follow the arguments. -/
def Step.text : Step → String
  | .call op args attrs =>
    let attrs := if attrs.isEmpty then [] else [attrs.text]
    op ++ "(" ++ Text.commaSeparated (args.map Operand.text ++ attrs) ++ ")"
  | .tuple fields => "(" ++ Text.commaSeparated (fields.map Operand.text) ++ ")"
  | .proj e i => e.text ++ "." ++ toString i

/-- A line of a listing. -/
inductive Line where
  /-- A numbered result with its type. -/
  | numbered (number : Nat) (step : Step) (type : Ty)
  /-- A local definition. -/
  | definition (name : String) (type : Ty) (value : Operand)
deriving DecidableEq

/-- The text of a line. -/
def Line.text : Line → String
  | .numbered n step t =>
    "%" ++ toString n ++ " = " ++ step.text ++ " /* ty=" ++ t.text ++ " */;"
  | .definition name t value =>
    "let %" ++ name ++ ": " ++ t.text ++ " = " ++ value.text ++ ";"

/-- The lines of a listing so far. -/
structure Listing where
  /-- The lines, last one first. -/
  reversed : List Line
  /-- The number of the line for a node. -/
  numbers : List (Nat × Nat)
  /-- How many lines have a number. -/
  count : Nat

namespace Listing

/-- The listing without lines. -/
def empty : Listing := ⟨[], [], 0⟩

/-- The lines in order. -/
def lines (s : Listing) : List Line := s.reversed.reverse

/-- Add a line for a node under the next number. -/
def number (s : Listing) (id : Nat) (step : Step) (type : Ty) : Operand × Listing :=
  (.result s.count,
    ⟨.numbered s.count step type :: s.reversed, (id, s.count) :: s.numbers, s.count + 1⟩)

/-- Add a line for a local definition. -/
def define (s : Listing) (name : String) (type : Ty) (value : Operand) : Listing :=
  { s with reversed := .definition name type value :: s.reversed }

mutual

/-- Add the lines for an expression: those of what it is made from, then its own. -/
def add (s : Listing) (e : Expr) : Operand × Listing :=
  match s.numbers.lookup e.id with
  | some n => (.result n, s)
  | none =>
    match e with
    | .var _ v => (.variable v.name, s)
    | .const _ t _ => (.constant t, s)
    | .call id op attrs args t =>
      let (args, s) := addAll s args
      s.number id (.call op args attrs) t
    | .tuple id fields =>
      let type := Ty.tuple (Expr.typesOf fields)
      let (fields, s) := addAll s fields
      s.number id (.tuple fields) type
    | .proj id e i =>
      let (operand, s) := add s e
      s.number id (.proj operand i) (e.typeAlong [i])
    | .letIn _ v value body =>
      let (operand, s) := add s value
      add (s.define v.name v.type operand) body

/-- Add the lines for several expressions, from left to right. -/
def addAll (s : Listing) : List Expr → List Operand × Listing
  | [] => ([], s)
  | e :: es =>
    let (operand, s) := add s e
    let (operands, s) := addAll s es
    (operand :: operands, s)

end

end Listing

namespace Function

/-- The result of a function and the listing that leads to it. -/
def listing (f : Function) : Operand × Listing := Listing.empty.add f.body

/-- The text of a function: its parameters and return type, its listing, its result. -/
def text (f : Function) : String :=
  let params := f.params.map fun v => "%" ++ v.name ++ ": " ++ v.type.text
  let header := "fn (" ++ Text.commaSeparated params ++ ") -> " ++ f.returnType.text ++ " \x7b\n"
  let (result, listing) := f.listing
  let body := listing.lines.foldl (fun acc line => acc ++ "  " ++ line.text ++ "\n") header
  body ++ "  " ++ result.text ++ "\n\x7d\n"

end Function

end TensorLowering
