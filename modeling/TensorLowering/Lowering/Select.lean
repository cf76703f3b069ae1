import TensorLowering.Index.Simplify
import TensorLowering.Lowering.Offer
import TensorLowering.Tensor.Search

/-!
# Choosing an implementation

From what a strategy offers, only implementations whose condition is proved are considered
(`applicable`). By priority, the first one of the greatest priority is chosen and alone computed.
With profiling, all are computed in order and the oracle is asked about the workload behind the
outputs of each; the first one of the least finite cost is chosen, and if there is none the one
that priority chooses. Every workload that is met is a task for the current trace session.
-/

namespace TensorLowering

variable {σ : Type}

/-- The call that an implementation is chosen for. -/
structure CallSite where
  /-- The operator. -/
  op : String
  /-- The attributes of the call. -/
  attrs : Attrs
  /-- The tensors of the arguments. -/
  inputs : List Tensor
  /-- The type of the result, with normal dimensions. -/
  type : Ty

namespace Specialization

/-- Whether every clause of the condition is proved without knowing any variable. -/
def applies (s : Specialization σ) : Bool :=
  match s.condition with
  | some clauses => clauses.all (IndexExpr.proves [])
  | none => true

end Specialization

/-- The implementations of an offer that apply, group by group. -/
def Offer.applicable (o : Offer σ) : List (Implementation σ) :=
  (o.specializations.filter Specialization.applies).flatMap (·.implementations)

/-- The implementations that can be considered for a call. The strategy runs with the target
entered. -/
def candidates (c : Collaborators σ) (r : CallSite) (target : Target) :
    Action σ (List (Implementation σ)) := do
  let strategy ← c.strategy r.op
  let offer ← Action.withTarget target (strategy r.attrs r.inputs r.type target)
  return offer.applicable

/-- Compute an implementation for a call, and find the workload behind its outputs. -/
def computeTraced (i : Implementation σ) (r : CallSite) (target : Target) :
    Action σ (List Tensor × Option Workload) := do
  let outputs ← i.compute r.attrs r.inputs r.type
  match nearestWorkload? outputs with
  | some w =>
    Action.noteTask ⟨target, w⟩
    return (outputs, some w)
  | none => return (outputs, none)

/-- The better of two implementations by priority; of equal ones the first. -/
def byPriority (i j : Implementation σ) : Implementation σ :=
  if i.priority ≥ j.priority then i else j

/-- The first implementation of the greatest priority. -/
def firstByPriority? : List (Implementation σ) → Option (Implementation σ)
  | [] => none
  | i :: is => some (is.foldl byPriority i)

/-- An implementation that was computed. -/
structure Computed (σ : Type) where
  implementation : Implementation σ
  outputs : List Tensor
  /-- The cost of the workload behind the outputs, where it is known and finite. -/
  cost : Option Binary64

/-- Compute all candidates in order. -/
def computeAll (oracle : Oracle) (r : CallSite) (target : Target) :
    List (Implementation σ) → Action σ (List (Computed σ))
  | [] => return []
  | i :: is => do
    let (outputs, workload) ← computeTraced i r target
    let cost := workload.bind fun w => (oracle target w).finiteCost?
    return ⟨i, outputs, cost⟩ :: (← computeAll oracle r target is)

namespace Computed

/-- The better of two by cost: the first, unless the second is known to be cheaper. -/
def byCost (a b : Computed σ) : Computed σ :=
  match a.cost, b.cost with
  | some x, some y => if y.numericLt x then b else a
  | none, some _ => b
  | _, none => a

/-- The better of two by priority; of equal ones the first. -/
def byPriority (a b : Computed σ) : Computed σ :=
  if a.implementation.priority ≥ b.implementation.priority then a else b

/-- The one to choose: the cheapest if any cost is known, and otherwise the one of the greatest
priority. -/
def choose? : List (Computed σ) → Option (Computed σ)
  | [] => none
  | a :: as =>
    let cheapest := as.foldl byCost a
    some (if cheapest.cost.isSome then cheapest else as.foldl byPriority a)

end Computed

/-- Choose among candidates and return the chosen one with its outputs. -/
def select (is : List (Implementation σ)) (r : CallSite) (target : Target) (useCosts : Bool) :
    Action σ (Implementation σ × List Tensor) :=
  match firstByPriority? is with
  | none => Action.fail (.noImplementation r.op)
  | some best =>
    if useCosts then do
      let oracle ← Action.read fun m => m.tuning.oracle
      let all ← computeAll oracle r target is
      let chosen ← Action.ofOption (.noImplementation r.op) (Computed.choose? all)
      return (chosen.implementation, chosen.outputs)
    else do
      let (outputs, _) ← computeTraced best r target
      return (best, outputs)

end TensorLowering
