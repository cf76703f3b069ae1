import TensorLowering.Binary64.Basic
import TensorLowering.Target
import TensorLowering.Tensor.Workload

/-!
# Tuning histories

A tuning history keeps, for each kind of device and workload, the cheapest measurement recorded
and the number of the configuration that was measured. "Cheapest" is meant in the total order of
bit patterns, and of equal costs the first one recorded stays. Asked for a workload, a history
answers with a profile: the best measurement, or that there is none.
-/

namespace TensorLowering

/-- What is known about the cost of a workload. -/
inductive Profile where
  /-- The best cost measured, and the configuration it was measured with. -/
  | tuned (cost : Binary64) (index : Nat)
  /-- Nothing was measured. -/
  | fallback
deriving DecidableEq, Repr, Inhabited

namespace Profile

/-- The cost of a workload that was measured. -/
def cost? : Profile → Option Binary64
  | .tuned cost _ => some cost
  | .fallback => none

/-- A cost by which implementations can be compared: one that was measured and is finite. -/
def finiteCost? (p : Profile) : Option Binary64 := p.cost?.filter Binary64.isFinite

end Profile

/-- The cost of one configuration. -/
structure Measurement where
  /-- What was measured. -/
  cost : Binary64
  /-- The number of the configuration. -/
  index : Nat
deriving DecidableEq, Repr

/-- The best measurement for each kind of device and workload. -/
structure History where
  /-- The measurements, each kind and workload once. -/
  best : List ((DeviceKind × Workload) × Measurement)

namespace History

/-- The history without measurements. -/
def empty : History := ⟨[]⟩

instance : Inhabited History := ⟨empty⟩

/-- Enter a measurement; one that is there gives way only to a cheaper one. -/
def enter (key : DeviceKind × Workload) (m : Measurement) :
    List ((DeviceKind × Workload) × Measurement) → List ((DeviceKind × Workload) × Measurement)
  | [] => [(key, m)]
  | (k, old) :: rest =>
    if key = k then (k, if m.cost.totalLt old.cost then m else old) :: rest
    else (k, old) :: enter key m rest

/-- Record a measurement. -/
def record (h : History) (kind : DeviceKind) (w : Workload) (m : Measurement) : History :=
  ⟨enter (kind, w) m h.best⟩

/-- The number of kinds and workloads that were measured. -/
def size (h : History) : Nat := h.best.length

/-- Whether nothing was recorded. -/
def isEmpty (h : History) : Bool := h.best.isEmpty

/-- What is known about a workload on a target. -/
def query (h : History) (target : Target) (w : Workload) : Profile :=
  match h.best.lookup (target.kind, w) with
  | some m => .tuned m.cost m.index
  | none => .fallback

end History

/-- An oracle answers for every target and workload what is known about its cost. -/
abbrev Oracle := Target → Workload → Profile

/-- The oracle that knows nothing. -/
def Oracle.fallback : Oracle := fun _ _ => .fallback

end TensorLowering
