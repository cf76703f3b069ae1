import TensorLowering.Graph.Ty

/-!
# Faults

What can go wrong while a function is lowered or an entry point is called, as causes; `message`
is the wording. A fault that ends a request on the cache is wrapped once in `lowering`, together
with the text of the function that was asked for.
-/

namespace TensorLowering

/-- Why an expression has no lowering. -/
inductive Unsupported where
  /-- A variable without a value. -/
  | freeVariable (name : String)
  /-- A projection out of something that is no tuple. -/
  | notATuple (type : Ty)
  /-- A projection to a field that the tuple does not have. -/
  | noSuchField (index fields : Nat)
  /-- A tuple value with too few tensors for one of its fields. -/
  | shortTuple (tensors index start stop : Nat)
deriving DecidableEq

/-- The wording of a reason. -/
def Unsupported.message : Unsupported → String
  | .freeVariable name => "free variable %" ++ name
  | .notATuple t => "projection out of non-tuple type " ++ t.text
  | .noSuchField index fields =>
    "tuple index " ++ toString index ++ " out of range for " ++ toString fields ++ " fields"
  | .shortTuple tensors index start stop =>
    "tuple value has " ++ toString tensors ++ " tensors, field " ++ toString index ++ " needs "
      ++ toString start ++ ".." ++ toString stop

/-- Why arguments do not fit an entry point. -/
inductive Mismatch where
  /-- Their number. -/
  | count (expected actual : Nat)
  /-- The element type of one. -/
  | dtype (argument : Nat) (actual expected : DataType)
  /-- One has an extent that is not known. -/
  | symbolic (argument : Nat)
  /-- The number of dimensions of one. -/
  | rank (argument actual expected : Nat)
  /-- The extent of one in some dimension. -/
  | extent (argument axis : Nat) (actual : Int) (expected : IndexExpr)
deriving DecidableEq

/-- The wording of a mismatch. -/
def Mismatch.message : Mismatch → String
  | .count expected actual =>
    "expected " ++ toString expected ++ " arguments, got " ++ toString actual
  | .dtype i actual expected =>
    "argument " ++ toString i ++ " has dtype " ++ actual.text ++ ", expected " ++ expected.text
  | .symbolic i => "argument " ++ toString i ++ " has a symbolic shape"
  | .rank i actual expected =>
    "argument " ++ toString i ++ " has rank " ++ toString actual ++ ", expected "
      ++ toString expected
  | .extent i axis actual expected =>
    "argument " ++ toString i ++ " axis " ++ toString axis ++ " is " ++ toString actual
      ++ ", expected " ++ expected.text

/-- Why a request failed. -/
inductive Fault where
  /-- The operator has no strategy. -/
  | noStrategy (op : String)
  /-- The operator has no shape function. -/
  | noShapeFunction (op : String)
  /-- The strategy offers nothing that applies. -/
  | noImplementation (op : String)
  /-- A dimension that is no 32-bit integer. -/
  | dimensionOverflow (value : Int)
  /-- A function was given without a target. -/
  | missingTarget
  /-- An implementation, shape function or builder gave up. -/
  | computation (who reason : String)
  /-- A shape function returned the wrong number of tensors. -/
  | shapeCount (op : String) (returned expected : Nat)
  /-- An expression has no lowering. -/
  | unsupported (why : Unsupported)
  /-- Arguments do not fit an entry point. -/
  | mismatch (why : Mismatch)
  /-- A request on the cache failed for a cause; the text is that of the function. -/
  | lowering (cause : Fault) (source : String)
deriving DecidableEq

instance : Inhabited Fault := ⟨.missingTarget⟩

/-- The wording of a fault. -/
def Fault.message : Fault → String
  | .noStrategy op => op ++ " doesn't have a strategy registered"
  | .noShapeFunction op => op ++ " doesn't have a shape function registered"
  | .noImplementation op => "no valid implementation for op " ++ op
  | .dimensionOverflow n => "dimension " ++ toString n ++ " does not fit in int32"
  | .missingTarget => "invalid cache key: Need target when source_func is a Function"
  | .computation who reason => "implementation " ++ who ++ " failed: " ++ reason
  | .shapeCount op returned expected =>
    "implementation " ++ op ++ " failed: shape function returned " ++ toString returned
      ++ " tensors for " ++ toString expected ++ " outputs"
  | .unsupported why => "unsupported expression: " ++ why.message
  | .mismatch why => "argument mismatch: " ++ why.message
  | .lowering cause source =>
    cause.message ++ "\nError during compile func\n--------------------------\n" ++ source
      ++ "--------------------------"

end TensorLowering
