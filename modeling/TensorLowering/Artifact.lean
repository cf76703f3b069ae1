import TensorLowering.Fault
import TensorLowering.Index.Simplify
import TensorLowering.Target
import TensorLowering.Tensor.Basic

/-!
# Artifacts and entry points

An artifact is a lowered function: its inputs and outputs as tensors, and what was chosen for
each call on the way. An entry point makes an artifact callable. It runs nothing; a call checks
the arguments against the inputs, takes the extents of the arguments for the symbolic dimensions
and describes the outputs with these extents filled in.
-/

namespace TensorLowering

/-- What was chosen for a call and what came out of it. -/
structure LoweredCall where
  /-- The name of the implementation. -/
  implementation : String
  /-- The priority of the implementation. -/
  priority : Int
  /-- The tensors the implementation returned. -/
  outputs : List Tensor
deriving Inhabited

/-- A lowered function. -/
structure Artifact where
  /-- The number by which artifacts are told apart. -/
  id : Nat
  /-- The target the function was lowered for. -/
  target : Target
  /-- The generated name. -/
  name : String
  /-- A placeholder for each tensor of the parameters. -/
  inputs : List Tensor
  /-- The tensors of the result. -/
  outputs : List Tensor
  /-- What was chosen for each call, in the order of evaluation. -/
  calls : List LoweredCall
deriving Inhabited

/-- An artifact made callable. -/
structure EntryPoint where
  /-- The number by which entry points are told apart. -/
  id : Nat
  /-- The name of the artifact. -/
  name : String
  /-- What the arguments are checked against. -/
  inputs : List Tensor
  /-- What a call describes. -/
  outputs : List Tensor
deriving Inhabited

namespace EntryPoint

/-- The entry point for an artifact. -/
def ofArtifact (id : Nat) (a : Artifact) : EntryPoint := ⟨id, a.name, a.inputs, a.outputs⟩

/-- Match the dimensions of one input against the extents of an argument. A number has to be the
extent; a variable is bound to the first extent it meets and has to agree with it afterwards; any
other expression is not looked at. -/
def bindExtents (argument axis : Nat) (known : Bindings) :
    List IndexExpr → List Int → Except Mismatch Bindings
  | expected :: dims, actual :: extents =>
    match expected with
    | .imm n _ =>
      if n = actual then bindExtents argument (axis + 1) known dims extents
      else .error (.extent argument axis actual expected)
    | .var v =>
      match known.value? v with
      | some n =>
        if n = actual then bindExtents argument (axis + 1) known dims extents
        else .error (.extent argument axis actual expected)
      | none => bindExtents argument (axis + 1) (known.bind v actual) dims extents
    | _ => bindExtents argument (axis + 1) known dims extents
  | _, _ => .ok known

/-- Match an argument against an input: element type, known extents, number of dimensions, and
the dimensions one by one. -/
def bindArgument (argument : Nat) (known : Bindings) (input actual : Tensor) :
    Except Mismatch Bindings :=
  if input.dtype ≠ actual.dtype then .error (.dtype argument actual.dtype input.dtype)
  else
    match actual.extents? with
    | none => .error (.symbolic argument)
    | some extents =>
      if extents.length ≠ input.rank then .error (.rank argument extents.length input.rank)
      else bindExtents argument 0 known input.shape extents

/-- Match the arguments from one on, in order. -/
def bindFrom (argument : Nat) (known : Bindings) :
    List Tensor → List Tensor → Except Mismatch Bindings
  | input :: inputs, actual :: actuals =>
    match bindArgument argument known input actual with
    | .ok known => bindFrom (argument + 1) known inputs actuals
    | .error e => .error e
  | _, _ => .ok known

/-- The values that arguments give to the symbolic dimensions of inputs. -/
def bindAll (inputs actuals : List Tensor) : Except Mismatch Bindings :=
  if inputs.length ≠ actuals.length then .error (.count inputs.length actuals.length)
  else bindFrom 0 [] inputs actuals

/-- The outputs with the values of the symbolic dimensions filled in, as new placeholders
numbered from `next` on. -/
def resolve (known : Bindings) (next : Nat) : List Tensor → List Tensor
  | [] => []
  | t :: ts =>
    .placeholder next t.name (t.shape.map (IndexExpr.simplify known)) t.dtype
      :: resolve known (next + 1) ts

end EntryPoint

end TensorLowering
