import TensorLowering.Graph.Fingerprint
import TensorLowering.Target

/-!
# Cache keys

A lowered function is cached under the function it was made from and the target it was made for.
Two keys are the same when the functions have one fingerprint and the targets are equal; the key
keeps the function itself, so that it can be lowered and shown.
-/

namespace TensorLowering

/-- A function and a target. -/
structure CacheKey where
  /-- The function. -/
  source : Function
  /-- The target. -/
  target : Target
  /-- The fingerprint of the function, found once. -/
  fingerprint : Fingerprint
  /-- It is that of the function. -/
  fingerprint_eq : fingerprint = source.fingerprint

namespace CacheKey

/-- The key of a function and a target. -/
def of (source : Function) (target : Target) : CacheKey := ⟨source, target, _, rfl⟩

instance : Inhabited CacheKey := ⟨of default default⟩

/-- Whether two keys are the same. -/
def same (a b : CacheKey) : Bool := a.target = b.target && a.fingerprint = b.fingerprint

end CacheKey

end TensorLowering
