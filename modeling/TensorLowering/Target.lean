import TensorLowering.Dict

/-!
# Targets

A target is the kind of device that code is made for, together with free-form options. Its kind
determines the keys by which strategies choose among implementations.
-/

namespace TensorLowering

/-- The kind of device. -/
inductive DeviceKind where
  | llvm | cuda | opencl | metal | vulkan
deriving DecidableEq, Repr, Inhabited

namespace DeviceKind

/-- The name of a kind. -/
def text : DeviceKind → String
  | .llvm => "llvm"
  | .cuda => "cuda"
  | .opencl => "opencl"
  | .metal => "metal"
  | .vulkan => "vulkan"

/-- The keys that the targets of a kind answer to: processors to one, graphics devices to their
own and a common one. -/
def keys : DeviceKind → List String
  | .llvm => ["cpu"]
  | .cuda => ["cuda", "gpu"]
  | .opencl => ["opencl", "gpu"]
  | .metal => ["metal", "gpu"]
  | .vulkan => ["vulkan", "gpu"]

end DeviceKind

/-- A device kind with options. -/
structure Target where
  /-- The kind of device. -/
  kind : DeviceKind
  /-- Options such as the processor model. -/
  options : Dict String
deriving DecidableEq, Inhabited

/-- The text of a target: the kind and the options in the order of their keys. -/
def Target.text (t : Target) : String :=
  t.options.entries.foldl (fun acc e => acc ++ " -" ++ e.1 ++ "=" ++ e.2) t.kind.text

end TensorLowering
