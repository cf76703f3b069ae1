import TensorLowering.Session.Book

/-!
# Recipes at work

`collaborators ask` are the collaborators that recipes describe, where `ask` serves the commands
that they issue. A command issued by a collaborator gets a log of its own and does not fail the
collaborator, however it ends.
-/

namespace TensorLowering.Session

/-- Serve a command that a collaborator issues, and note its report. -/
def perform (ask : Command → Act Reply) (c : Command) : Act Unit := fun m =>
  let outer := m.own.log
  let (r, m) := ask c { m with own := { m.own with log := [] } }
  let entry := LogEntry.effect m.own.log.reverse r
  let m := { m with own := { m.own with log := entry :: outer } }
  match r with
  | .stalled => (.stalled, m)
  | _ => (.ok (), m)

/-- Serve commands in order. -/
def performAll (ask : Command → Act Reply) : List Command → Act Unit
  | [] => return ()
  | c :: cs => do
    perform ask c
    performAll ask cs

/-- Fill in something for `who`, to whom it is a failure if anything is missing. -/
def filled {α : Type} (who : String) (f : (Nat → Nat) → Nat → Except Missing (α × Nat)) : Act α :=
  Action.takeNumbers fun lots next =>
    (f lots next).mapError fun why => .computation who why.message

/-! ### Outputs -/

/-- The workload that a recipe gives, for some inputs. -/
def WorkloadRecipe.workload? (inputs : List Tensor) : WorkloadRecipe → Option Workload
  | .ofInputs name => Workload.ofTensors? name inputs
  | .exact w => some w

/-- Annotate a tensor, if there is a workload for it. -/
def annotated (t : Tensor) : Option Workload → Act Tensor
  | some w => do return t.annotate w (← Action.freshNumber)
  | none => return t

/-- Compute so many tensors in a row, each from the one before. -/
def wrapped (t : Tensor) : Nat → Act Tensor
  | 0 => return t
  | n + 1 => do wrapped (← Action.computed "T_wrap" t.shape t.dtype "wrap" [t]) n

/-- The name and tag of new tensors, and the workload they are annotated with by default. -/
structure OutputStyle where
  tensorName : String
  tag : String
  workload : Option WorkloadRecipe

/-- A new tensor for an output. -/
def newOutput (style : OutputStyle) (scope : Scope) (o : OutputRecipe) (shape : List IndexExpr)
    (dtype : DataType) : Act Tensor := do
  let t ← Action.computed style.tensorName shape dtype style.tag scope.inputs
  let recipe := o.workload.getD style.workload
  let t ← annotated t (recipe.bind fun r => r.workload? scope.inputs)
  wrapped t o.wraps

/-- One output. -/
def makeOutput (who : String) (style : OutputStyle) (scope : Scope) (o : OutputRecipe) :
    Act Tensor :=
  let missing (why : Missing) : Fault := .computation who why.message
  match o.source with
  | .input i => Action.ofOption (missing .input) scope.inputs[i]?
  | .like i => do
    let t ← Action.ofOption (missing .input) scope.inputs[i]?
    newOutput style scope o t.shape t.dtype
  | .out j => do
    let t ← Action.ofOption (missing .output) scope.leaves[j]?
    newOutput style scope o t.shape t.dtype
  | .shape dims dtype => do
    let shape ← filled who fun lots next => Template.fillAll scope next dims lots
    newOutput style scope o shape dtype

/-- Outputs in order. -/
def makeOutputs (who : String) (style : OutputStyle) (scope : Scope) :
    List OutputRecipe → Act (List Tensor)
  | [] => return []
  | o :: os => do
    let t ← makeOutput who style scope o
    return t :: (← makeOutputs who style scope os)

/-- The outputs one by one. -/
def OutputsRecipe.outputs (scope : Scope) : OutputsRecipe → List OutputRecipe
  | .types => (List.range scope.leaves.length).map fun j => ⟨.out j, none, 0⟩
  | .inputs => (List.range scope.inputs.length).map fun i => ⟨.input i, none, 0⟩
  | .each outputs => outputs

/-! ### Collaborators -/

/-- Run a computation that was noted. -/
def ComputeRecipe.run (ask : Command → Act Reply) (who : String) (scope : Scope) :
    ComputeRecipe → Act (List Tensor)
  | .mk effects fails panics outputs tensorName tag workload => do
    performAll ask effects
    match fails with
    | some reason => Action.fail (.computation who reason)
    | none =>
      if panics then Action.panic
      else makeOutputs who ⟨tensorName, tag, workload⟩ scope (outputs.outputs scope)

/-- The implementation that a recipe describes. -/
def ImplementationRecipe.implementation (ask : Command → Act Reply) :
    ImplementationRecipe → Implementation Book
  | .mk name priority _ _ _ compute =>
    { name, priority
      compute := fun attrs inputs type => do
        note (.compute name)
        compute.run ask name ⟨attrs, inputs, type.leaves⟩ }

/-- Whether an implementation is offered on a target. -/
def ImplementationRecipe.fits (target : Target) : ImplementationRecipe → Bool
  | .mk _ _ _ key option _ =>
    (match key with
      | some k => target.kind.keys.contains k
      | none => true) &&
    (match option with
      | some (k, value) => target.options.get? k = value
      | none => true)

/-- Add the implementations that fit a target to an offer, in order. -/
def offerFrom (ask : Command → Act Reply) (who : String) (scope : Scope) (target : Target)
    (o : Offer Book) : List ImplementationRecipe → Act (Offer Book)
  | [] => return o
  | r :: rs =>
    if r.fits target then
      match r with
      | .mk _ _ (some clauses) _ _ _ => do
        let clauses ← filled who fun lots next => Template.fillAll scope next clauses lots
        offerFrom ask who scope target (o.add (some clauses) (r.implementation ask)) rs
      | .mk _ _ none _ _ _ =>
        offerFrom ask who scope target (o.add none (r.implementation ask)) rs
    else offerFrom ask who scope target o rs

/-- The strategy that a recipe describes. -/
def StrategyRecipe.strategy (ask : Command → Act Reply) (op : String) :
    StrategyRecipe → Strategy Book
  | .mk effects fails implementations => fun attrs inputs type target => do
    let current ← Action.read fun m => m.thread.target?
    note (.strategy op target current)
    performAll ask effects
    match fails with
    | some reason => Action.fail (.computation op reason)
    | none => offerFrom ask op ⟨attrs, inputs, type.leaves⟩ target .empty implementations

/-- The shape function that a recipe describes. The result has one tensor for each output, which
holds as many extents as the output has dimensions. -/
def ComputeRecipe.shapeFunction (ask : Command → Act Reply) (op : String) (r : ComputeRecipe) :
    ShapeFunction Book := fun attrs inputs ranks => do
  note (.shapeFunction op ranks)
  r.run ask op ⟨attrs, inputs, ranks.map fun rank => ⟨shapeExtent rank, .int64⟩⟩

/-- The builder that a recipe describes. -/
def BuilderRecipe.build (ask : Command → Act Reply) (r : BuilderRecipe) (a : Artifact) :
    Act EntryPoint := do
  note (.build a.name)
  performAll ask r.effects
  modifyBook fun b => { b with builds := b.builds + 1 }
  let builds ← Action.read fun m => m.own.builds
  if builds ≤ r.fails then
    Action.fail (.computation "builder" ("build " ++ toString builds ++ " failed"))
  else buildSymbolic a

/-- The collaborators of a session. -/
def collaborators (ask : Command → Act Reply) : Collaborators Book where
  strategy? b op := (b.strategies.lookup op).map fun r => r.strategy ask op
  shapeFunction? b op := (b.shapeFunctions.lookup op).map fun r => r.shapeFunction ask op
  build a := fun m =>
    match m.own.builder with
    | some r => r.build ask a m
    | none => buildSymbolic a m

end TensorLowering.Session
