import TensorLowering.Attrs
import TensorLowering.DataType

/-!
# Workloads

A workload names a tunable computation: a template together with the concrete arguments it is
used with. Tuning records are kept per workload.
-/

namespace TensorLowering

/-- An argument of a tunable computation. -/
inductive WorkloadArg where
  /-- A tensor of known extents. -/
  | tensor (shape : List Int) (dtype : DataType)
  /-- A number. -/
  | int (value : Int)
  /-- A text. -/
  | str (value : String)
deriving DecidableEq, Repr

/-- A template and its arguments. -/
structure Workload where
  /-- The name of the template. -/
  name : String
  /-- What the template is used with. -/
  args : List WorkloadArg
deriving DecidableEq, Repr

/-- The text of an argument. -/
def WorkloadArg.text : WorkloadArg → String
  | .tensor shape dtype => Text.intList shape ++ ":" ++ dtype.text
  | .int n => toString n
  | .str s => Text.quoted s

/-- The text of a workload, written like a call. -/
def Workload.text (w : Workload) : String :=
  w.name ++ "(" ++ Text.commaSeparated (w.args.map WorkloadArg.text) ++ ")"

end TensorLowering
