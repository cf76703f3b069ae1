import TensorLowering.Graph.Listing
import TensorLowering.Lowering.Naming
import TensorLowering.Lowering.Walk

/-!
# The engine

An engine lowers functions for targets and keeps the results. A request that finds a filled slot
is served from it and counted; a request that finds none lowers the function, and keeps the
result only if that succeeds. Values and shape functions are kept apart but share one table of
names. `Engine.jit` also keeps an entry point, which is built at most once for an entry.

A fault that ends a request is wrapped with the text of the function that was asked for.
-/

namespace TensorLowering

variable {σ : Type}

/-- The settings of an engine. -/
structure Config where
  /-- Whether measured costs decide between implementations. -/
  useCosts : Bool
  /-- The longest generated name that is not cut. -/
  maxNameLength : Nat
deriving Inhabited

/-- Measured costs count, and names may have eighty characters. -/
def Config.standard : Config := ⟨true, 80⟩

/-- An engine: its settings and its collaborators. -/
structure Engine (σ : Type) where
  config : Config
  collaborators : Collaborators σ

/-- What to lower: a function, which needs a target, or a key made before. -/
inductive Source where
  | function (f : Function)
  | key (k : CacheKey)
deriving Inhabited

/-- The key for a source. A key that is given stays as it is, whatever the target. -/
def Source.key? (s : Source) (target : Option Target) : Except Fault CacheKey :=
  match s, target with
  | .key k, _ => .ok k
  | .function f, some t => .ok (.of f t)
  | .function _, none => .error .missingTarget

/-! ### Slots -/

/-- Serve a key from its slot, or lower it into the slot. The result is the number of the slot.
The slot is busy while the lowering runs; whoever asks for the same key meanwhile would wait for
itself. After a fault the slot is taken away, unless it is no longer the one of the key; after a
panic it stays, empty. -/
def obtain (aspect : Aspect) (key : CacheKey) (lower : Action σ Artifact) : Action σ Nat :=
  fun m =>
    let (slot, cache) := (m.cache aspect).slotFor key
    if cache.isBusy slot then (.stalled, m)
    else
      match cache.content? slot with
      | some _ => (.ok slot, m.modifyCache aspect fun _ => cache.countUse slot)
      | none =>
        match lower (m.modifyCache aspect fun _ => cache.setBusy slot true) with
        | (.ok a, m) =>
          (.ok slot, m.modifyCache aspect fun c => (c.fill slot a).setBusy slot false)
        | (.fault e, m) =>
          (.fault e, m.modifyCache aspect fun c => (c.detach key slot).setBusy slot false)
        | (.panic, m) => (.panic, m.modifyCache aspect fun c => c.setBusy slot false)
        | (.stalled, m) => (.stalled, m)

/-- The entry of a slot that was obtained. -/
def entryOf (aspect : Aspect) (slot : Nat) : Action σ Entry := fun m =>
  match (m.cache aspect).content? slot with
  | some e => (.ok e, m)
  | none => (.stalled, m)

/-- Hand out a name for a base name. -/
def claimName (base : String) : Action σ String := fun m =>
  let (name, names) := m.names.claim base
  (.ok name, { m with names })

namespace Engine

/-- Lower a function into an artifact: the walk, then the name. -/
def lowerArtifact (g : Engine σ) (aspect : Aspect) (key : CacheKey) : Action σ Artifact := do
  let walk : Walk σ := ⟨g.collaborators, key.target, g.config.useCosts, aspect⟩
  let lowered ← walk.lower key.source
  let base ← Action.orPanic (kernelName? lowered.ops g.config.maxNameLength)
  let name ← claimName (match aspect with
    | .values => base
    | .shapes => base ++ "_shape_func")
  let id ← Action.freshNumber
  return ⟨id, key.target, name, lowered.inputs, lowered.outputs, lowered.calls⟩

/-- The slot for a key, filled if it was not. -/
def obtainArtifact (g : Engine σ) (aspect : Aspect) (key : CacheKey) : Action σ Nat :=
  obtain aspect key (g.lowerArtifact aspect key)

/-- The entry point of a slot, built if it was not. -/
def obtainEntryPoint (g : Engine σ) (slot : Nat) : Action σ EntryPoint := do
  let entry ← entryOf .values slot
  match entry.entryPoint with
  | some p => return p
  | none =>
    let p ← g.collaborators.build entry.artifact
    Action.modify fun m => m.modifyCache .values fun c => c.storeEntryPoint slot p
    return p

/-- Do something for a key, and wrap its fault with the text of the function. -/
def forKey {α : Type} (source : Source) (target : Option Target) (act : CacheKey → Action σ α) :
    Action σ α :=
  match source.key? target with
  | .error e => Action.fail e
  | .ok key => Action.mapFault (fun e => .lowering e key.source.text) (act key)

/-- Lower a function, or its shape function. -/
def lower (g : Engine σ) (aspect : Aspect) (source : Source) (target : Option Target) :
    Action σ Artifact :=
  forKey source target fun key => do
    let slot ← g.obtainArtifact aspect key
    return (← entryOf aspect slot).artifact

/-- Lower a function and make it callable. -/
def jit (g : Engine σ) (source : Source) (target : Option Target) : Action σ EntryPoint :=
  forKey source target fun key => do
    let slot ← g.obtainArtifact .values key
    g.obtainEntryPoint slot

end Engine

namespace Machine

/-- Forget all entries of both caches. -/
def clear (m : Machine σ) : Machine σ :=
  { m with values := m.values.clear, shapes := m.shapes.clear }

/-- The listing of the lowered functions. -/
def listing (m : Machine σ) : String :=
  let items := m.values.items
  let item := fun (acc : String) (e : CacheKey × Entry) =>
    acc ++ "------------------------------------\n"
      ++ "target=" ++ e.1.target.text ++ "\n"
      ++ "use_count=" ++ toString e.2.uses ++ "\n"
      ++ "func_name=" ++ e.2.artifact.name ++ "\n"
      ++ e.1.source.text
  let header := "====================================\n"
    ++ "CompilerEngine dump, " ++ toString items.length ++ " items cached\n"
  items.foldl item header ++ "===================================\n"

/-- The settings and the sizes of both caches. -/
def summary (m : Machine σ) (config : Config) : String :=
  "CompileEngine \x7b config: EngineConfig \x7b use_profile: "
    ++ (if config.useCosts then "true" else "false")
    ++ ", max_func_name_len: " ++ toString config.maxNameLength ++ " \x7d, cached: "
    ++ toString m.values.items.length ++ ", shape_funcs_cached: "
    ++ toString m.shapes.items.length ++ " \x7d"

end Machine

/-- The text of an entry point. -/
def EntryPoint.text (p : EntryPoint) : String :=
  "PackedFunc \x7b name: " ++ Text.quoted p.name ++ " \x7d"

/-- Call an entry point. -/
def EntryPoint.call (p : EntryPoint) (actuals : List Tensor) : Action σ (List Tensor) :=
  Action.takeNumbers fun _ next =>
    match EntryPoint.bindAll p.inputs actuals with
    | .ok known => .ok (EntryPoint.resolve known next p.outputs, next + p.outputs.length)
    | .error why => .error (.mismatch why)

/-- The builder that makes no code: an entry point checks its arguments and describes its
outputs. -/
def buildSymbolic (a : Artifact) : Action σ EntryPoint := do
  return .ofArtifact (← Action.freshNumber) a

end TensorLowering
