import TensorLowering.Graph.Expr
import TensorLowering.Lowering.Normalize
import TensorLowering.Lowering.Select

/-!
# Lowering one call

A call is lowered in three steps: the type of its result is normalized, the implementations that
apply are found, and one of them is chosen. A call is *dynamic* when an unknown dimension occurs
in its type or in that of an argument; measured costs say nothing about such a call, so it is
decided by priority alone. While a call is lowered whose operator the current trace session does
not want, tracing is suspended on the thread.
-/

namespace TensorLowering

variable {σ : Type}

/-- A call of an operator. -/
structure Call where
  op : String
  attrs : Attrs
  args : List Expr
  /-- The type of the result. -/
  type : Ty
deriving Inhabited

/-- Whether an unknown dimension occurs in the type of a call or of one of its arguments. -/
def Call.isDynamic (call : Call) : Bool :=
  call.type.hasUnknown || call.args.any fun e => e.type.hasUnknown

/-- Whether a session is collecting tasks, but not those of an operator. -/
def Machine.excludes (m : Machine σ) (op : String) : Bool :=
  match m.tuning.session? with
  | some s => m.collects s && !s.covers op
  | none => false

/-- Lower a call, given the tensors of its arguments. -/
def lowerCall (c : Collaborators σ) (target : Target) (useCosts : Bool) (call : Call)
    (inputs : List Tensor) : Action σ LoweredCall := do
  let type ← Action.takeNumbers fun lots next => call.type.normalize lots next
  let excluded ← Action.read fun m => m.excludes call.op
  Action.suspendIf excluded do
    let site : CallSite := ⟨call.op, call.attrs, inputs, type⟩
    let is ← candidates c site target
    let (chosen, outputs) ← select is site target (useCosts && !call.isDynamic)
    return ⟨chosen.name, chosen.priority, outputs⟩

end TensorLowering
