import TensorLowering.Artifact
import TensorLowering.Cache.Key

/-!
# The cache table

A cache maps keys to *slots*. A slot is made by the first request for a key and filled by the one
request that lowers it; while that goes on, the slot is busy. A slot stays the same one for the
requests that hold it even when the table no longer maps a key to it, so the table gives slots by
number: a request that was overtaken by `clear` fills a slot that no later request will find.

The operations below are the single steps of a request; `Engine` puts them together.
-/

namespace TensorLowering

/-- What a filled slot holds. -/
structure Entry where
  /-- The lowered function. -/
  artifact : Artifact
  /-- How many requests were served by this entry after it was made. -/
  uses : Nat
  /-- The entry point, once it was built. -/
  entryPoint : Option EntryPoint
deriving Inhabited

/-- The place of one key. -/
structure Slot where
  /-- Whether a request is working on it. -/
  busy : Bool
  /-- What it was filled with. -/
  entry : Option Entry
deriving Inhabited

/-- Slots by number, and the slot of each key. -/
structure Cache where
  /-- The keys with their slots; no two keys here are the same. -/
  mapped : List (CacheKey × Nat)
  /-- Every slot that was ever made. -/
  slots : Array Slot
deriving Inhabited

namespace Cache

/-- The cache without slots. -/
def empty : Cache := ⟨[], #[]⟩

/-- The slot of a key. -/
def slot? (c : Cache) (key : CacheKey) : Option Nat :=
  (c.mapped.find? fun m => m.1.same key).map (·.2)

/-- The slot of a key, made if there is none. The key that is kept is that of the request that
makes it. -/
def slotFor (c : Cache) (key : CacheKey) : Nat × Cache :=
  match c.slot? key with
  | some n => (n, c)
  | none =>
    let slot := c.slots.size
    (slot, ⟨(key, slot) :: c.mapped, c.slots.push ⟨false, none⟩⟩)

/-- Whether a slot is the one of a key. -/
def serves (c : Cache) (key : CacheKey) (slot : Nat) : Bool := c.slot? key == some slot

/-- Take a slot away from a key, if it is the one of the key. -/
def detach (c : Cache) (key : CacheKey) (slot : Nat) : Cache :=
  if c.serves key slot then { c with mapped := c.mapped.filter fun m => !m.1.same key } else c

/-- Whether a request is working on a slot. -/
def isBusy (c : Cache) (slot : Nat) : Bool := (c.slots[slot]?.map (·.busy)).getD false

/-- What a slot was filled with. -/
def content? (c : Cache) (slot : Nat) : Option Entry := c.slots[slot]?.bind (·.entry)

/-- Begin or end the work on a slot. -/
def setBusy (c : Cache) (slot : Nat) (busy : Bool) : Cache :=
  { c with slots := c.slots.modify slot fun s => { s with busy } }

/-- Fill a slot with a new entry. -/
def fill (c : Cache) (slot : Nat) (a : Artifact) : Cache :=
  { c with slots := c.slots.modify slot fun s => { s with entry := some ⟨a, 0, none⟩ } }

/-- Change the entry of a slot. -/
def modifyEntry (c : Cache) (slot : Nat) (f : Entry → Entry) : Cache :=
  { c with slots := c.slots.modify slot fun s => { s with entry := s.entry.map f } }

/-- Count a request that was served by the entry of a slot. -/
def countUse (c : Cache) (slot : Nat) : Cache :=
  c.modifyEntry slot fun e => { e with uses := e.uses + 1 }

/-- Keep the entry point that was built for the entry of a slot. -/
def storeEntryPoint (c : Cache) (slot : Nat) (p : EntryPoint) : Cache :=
  c.modifyEntry slot fun e => { e with entryPoint := some p }

/-- Forget the slots of all keys. -/
def clear (c : Cache) : Cache := { c with mapped := [] }

/-- The entry that the slot of a key shows; a slot that is being worked on shows none. -/
def shown? (c : Cache) (m : CacheKey × Nat) : Option (CacheKey × Entry) :=
  if c.isBusy m.2 then none else (c.content? m.2).map fun e => (m.1, e)

/-- The keys with their entries, in the order of the generated names. -/
def items (c : Cache) : List (CacheKey × Entry) :=
  (c.mapped.filterMap c.shown?).mergeSort fun a b => a.2.artifact.name ≤ b.2.artifact.name

end Cache

end TensorLowering
