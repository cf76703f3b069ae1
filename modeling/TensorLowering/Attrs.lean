import TensorLowering.Binary64.Shortest
import TensorLowering.Dict
import TensorLowering.Text.Quoted

/-!
# Operator attributes

A call carries attributes: named integers, floating-point numbers, truth values, texts and lists
of integers. The lowering hands them to strategies and does not look into them. Two numbers are
the same attribute when their bit patterns are, so an attribute that is not a number equals
itself.
-/

namespace TensorLowering

/-- The value of an attribute. -/
inductive AttrValue where
  | int (value : Int)
  | float (value : Binary64)
  | bool (value : Bool)
  | str (value : String)
  | ints (values : List Int)
deriving DecidableEq, Repr

/-- Integers in brackets. -/
def Text.intList (values : List Int) : String :=
  "[" ++ Text.commaSeparated (values.map toString) ++ "]"

/-- The text of a value; a number is marked by an `f` and a text is quoted. -/
def AttrValue.text : AttrValue → String
  | .int n => toString n
  | .float x => x.text ++ "f"
  | .bool b => if b then "true" else "false"
  | .str s => Text.quoted s
  | .ints ns => Text.intList ns

/-- The attributes of a call. -/
abbrev Attrs := Dict AttrValue

namespace Attrs

/-- The value of an attribute that is an integer. -/
def int? (attrs : Attrs) (key : String) : Option Int :=
  match attrs.get? key with
  | some (.int n) => some n
  | _ => none

/-- The attributes in the order of their keys. -/
def text (attrs : Attrs) : String :=
  Text.commaSeparated (attrs.entries.map fun e => e.1 ++ "=" ++ e.2.text)

end Attrs

end TensorLowering
