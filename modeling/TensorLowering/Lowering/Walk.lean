import TensorLowering.Lowering.Call

/-!
# Lowering functions

`lower` turns the parameters of a function into placeholders and walks over its body.
Each node is lowered once, after the nodes it is made from, and stands for a list of tensors: one
for each tensor of its type, in depth-first order. A local definition adds to one table of
variables, which only grows.

The same walk lowers values and shapes. For shapes, every tensor is replaced by a tensor with one
dimension that holds its extents, and calls are replaced by calls of shape functions.
-/

namespace TensorLowering

variable {σ : Type}

/-- What stays the same throughout a walk. -/
structure Walk (σ : Type) where
  collaborators : Collaborators σ
  target : Target
  /-- Whether measured costs are asked for. -/
  useCosts : Bool
  aspect : Aspect

/-- What a walk has found so far. -/
structure Progress where
  /-- The tensors of the nodes that were lowered. -/
  memo : List (Nat × List Tensor)
  /-- The tensors of the variables; a later entry for a variable stands in front. -/
  bound : List (Nat × List Tensor)
  /-- What was chosen for the calls, last one first. -/
  calls : List LoweredCall
  /-- The operators of the calls that were reached, last one first. -/
  ops : List String

/-- A lowered function without a name. -/
structure Lowered where
  inputs : List Tensor
  outputs : List Tensor
  /-- What was chosen for each call, in the order of evaluation. -/
  calls : List LoweredCall
  /-- The operators of the calls, in the order of evaluation. -/
  ops : List String

namespace Progress

/-- Nothing was found yet. -/
def start : Progress := ⟨[], [], [], []⟩

/-- Keep the tensors of a node. -/
def remember (s : Progress) (id : Nat) (ts : List Tensor) : Progress :=
  { s with memo := (id, ts) :: s.memo }

/-- Bind a variable to tensors. -/
def bind (s : Progress) (v : Var) (ts : List Tensor) : Progress :=
  { s with bound := (v.id, ts) :: s.bound }

/-- Note that a call was reached. -/
def reach (s : Progress) (op : String) : Progress := { s with ops := op :: s.ops }

/-- Note what was chosen for a call. -/
def choose (s : Progress) (c : LoweredCall) : Progress := { s with calls := c :: s.calls }

end Progress

/-! ### Leaves -/

/-- The one dimension of a tensor that holds a shape of a given rank. -/
def shapeExtent (rank : Nat) : List IndexExpr := [.imm rank .int32]

/-- The placeholder for one tensor of a parameter. -/
def inputTensor (aspect : Aspect) (name : String) (t : TensorType) : Action σ Tensor :=
  match aspect with
  | .values => do
    let shape ← Action.takeNumbers fun lots next => normalizeShape next t.shape lots
    Action.placeholder name shape t.dtype
  | .shapes => Action.placeholder name (shapeExtent t.rank) .int64

/-- The placeholders for the tensors of a parameter. -/
def inputTensors (aspect : Aspect) (name : String) : List TensorType → Action σ (List Tensor)
  | [] => return []
  | t :: ts => do
    let first ← inputTensor aspect name t
    return first :: (← inputTensors aspect name ts)

/-- The tensor of a constant. -/
def constantTensor (aspect : Aspect) (t : TensorType) : Action σ Tensor :=
  match aspect with
  | .values => do
    let shape ← Action.takeNumbers fun lots next => normalizeShape next t.shape lots
    Action.placeholder "compile_engine_const" shape t.dtype
  | .shapes => Action.computed "shape_const" (shapeExtent t.rank) .int64 "shape_const" []

/-! ### Inner nodes -/

/-- The tensors of one field, out of those of a tuple. -/
def projectTensors (type : Ty) (ts : List Tensor) (index : Nat) :
    Except Unsupported (List Tensor) :=
  match type with
  | .tuple fields =>
    match fields[index]? with
    | none => .error (.noSuchField index fields.length)
    | some field =>
      let start := (Ty.leavesList (fields.take index)).length
      let stop := start + field.leaves.length
      if stop ≤ ts.length then .ok ((ts.drop start).take field.leaves.length)
      else .error (.shortTuple ts.length index start stop)
  | .tensor _ | .handle _ => .error (.notATuple type)

/-- Call the shape function of an operator: it has to return a tensor for each one of the type. -/
def callShapeFunction (c : Collaborators σ) (call : Call) (inputs : List Tensor) :
    Action σ (List Tensor) := do
  let shapeFunction ← c.shapeFunction call.op
  let ranks := call.type.leaves.map TensorType.rank
  let outputs ← shapeFunction call.attrs inputs ranks
  if outputs.length = ranks.length then return outputs
  else Action.fail (.shapeCount call.op outputs.length ranks.length)

namespace Walk

/-- Lower a call whose arguments were lowered. -/
def finishCall (w : Walk σ) (s : Progress) (call : Call) (inputs : List Tensor) :
    Action σ (List Tensor × Progress) :=
  match w.aspect with
  | .values => do
    let lowered ← lowerCall w.collaborators w.target w.useCosts call inputs
    return (lowered.outputs, (s.reach call.op).choose lowered)
  | .shapes => do
    let outputs ← callShapeFunction w.collaborators call inputs
    return (outputs, s.reach call.op)

mutual

/-- Lower a node, unless it was lowered before. -/
def visit (w : Walk σ) (s : Progress) (e : Expr) : Action σ (List Tensor × Progress) :=
  match s.memo.lookup e.id with
  | some ts => return (ts, s)
  | none =>
    match e with
    | .var id v =>
      match s.bound.lookup v.id with
      | some ts => return (ts, s.remember id ts)
      | none => Action.fail (.unsupported (.freeVariable v.name))
    | .const id t _ => do
      let t ← constantTensor w.aspect t
      return ([t], s.remember id [t])
    | .call id op attrs args type => do
      let (inputs, s) ← visitAll w s args
      let (ts, s) ← w.finishCall s ⟨op, attrs, args, type⟩ inputs
      return (ts, s.remember id ts)
    | .tuple id fields => do
      let (ts, s) ← visitAll w s fields
      return (ts, s.remember id ts)
    | .proj id tuple index => do
      let (ts, s) ← visit w s tuple
      match projectTensors tuple.type ts index with
      | .ok ts => return (ts, s.remember id ts)
      | .error why => Action.fail (.unsupported why)
    | .letIn id v value body => do
      let (ts, s) ← visit w s value
      let (ts, s) ← visit w (s.bind v ts) body
      return (ts, s.remember id ts)

/-- Lower several nodes from left to right, and put their tensors one after the other. -/
def visitAll (w : Walk σ) (s : Progress) : List Expr → Action σ (List Tensor × Progress)
  | [] => return ([], s)
  | e :: es => do
    let (ts, s) ← visit w s e
    let (rest, s) ← visitAll w s es
    return (ts ++ rest, s)

end

/-- Make the placeholders for the parameters, in order. -/
def bindParams (w : Walk σ) (s : Progress) : List Var → Action σ (List Tensor × Progress)
  | [] => return ([], s)
  | v :: vs => do
    let ts ← inputTensors w.aspect v.name v.type.leaves
    let (rest, s) ← bindParams w (s.bind v ts) vs
    return (ts ++ rest, s)

/-- Lower a function. -/
def lower (w : Walk σ) (f : Function) : Action σ Lowered := do
  let (inputs, s) ← w.bindParams .start f.params
  let (outputs, s) ← w.visit s f.body
  return ⟨inputs, outputs, s.calls.reverse, s.ops.reverse⟩

end Walk

end TensorLowering
