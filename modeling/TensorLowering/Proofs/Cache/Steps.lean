import TensorLowering.Proofs.Cache.Slots
import TensorLowering.Machine
import Mathlib.Logic.Function.Basic
import Mathlib.Logic.Relation

/-!
# Requests on one cache, step by step

Requests from many threads and clearings are served by one cache at the same time. A request goes
through its phases in atomic steps, and between any two of its steps others may make theirs
(`System.Step`): it looks up the slot of its key or makes it, waits for the slot, tests whether it
is filled, tests whether it still is the slot of the key, lowers the function, fills the slot or
takes it away, and leaves the slot. The steps are the operations of the cache that `obtain` puts
together: without others in between they lead where `obtain` does (`leads_obtain`).

Time is counted in clearings. The clearings before a request began, before its last look-up and
before its lowering began are recorded with it, those before a slot was made with the slot. The
invariant (`Sound`) says that these are the same wherever they meet: a slot is the one of its label
only until the next clearing, and so it is found, and its lowering begins, between the same two
clearings between which it was made.
-/

namespace TensorLowering

/-- Where a request stands. -/
inductive Phase where
  /-- It has not begun. -/
  | idle
  /-- It is about to look up the slot of its key. -/
  | looking
  /-- It has found no slot, and is about to look again and make one. -/
  | missed
  /-- It waits for a slot. -/
  | waiting (slot : Nat)
  /-- It works on the slot and is about to test whether it is filled. -/
  | testing (slot : Nat)
  /-- The slot is empty, and it is about to test whether it still is the one of the key. -/
  | checking (slot : Nat)
  /-- The slot is not the one of the key, and it is about to leave it and start over. -/
  | retrying (slot : Nat)
  /-- It lowers the function. -/
  | lowering (slot : Nat)
  /-- The function was lowered, and it is about to fill the slot. -/
  | filling (slot : Nat) (a : Artifact)
  /-- The lowering has failed, and it is about to take the slot away. -/
  | failing (slot : Nat) (e : Fault)
  /-- It is about to leave the slot and to return. -/
  | leaving (slot : Nat) (o : Outcome Artifact)
  /-- It has returned; a value that it returned is the one of the slot. -/
  | done (slot : Nat) (o : Outcome Artifact)

namespace Phase

/-- The slot a request has. -/
def slot? : Phase → Option Nat
  | .idle | .looking | .missed => none
  | .waiting n | .testing n | .checking n | .retrying n | .lowering n | .filling n _
  | .failing n _ | .leaving n _ | .done n _ => some n

/-- The slot a request works on. -/
def holds? : Phase → Option Nat
  | .idle | .looking | .missed | .waiting _ | .done .. => none
  | .testing n | .checking n | .retrying n | .lowering n | .filling n _ | .failing n _
  | .leaving n _ => some n

/-- The slot a request lowers a function for: from the test that allowed it to the end of the
lowering, when the slot is filled or taken away. -/
def lowers? : Phase → Option Nat
  | .lowering n | .filling n _ | .failing n _ => some n
  | .idle | .looking | .missed | .waiting _ | .testing _ | .checking _ | .retrying _ | .leaving ..
  | .done .. => none

/-- The slot a request has found empty and does not leave yet. -/
def blank? : Phase → Option Nat
  | .checking n | .lowering n | .filling n _ | .failing n _ => some n
  | .idle | .looking | .missed | .waiting _ | .testing _ | .retrying _ | .leaving .. | .done .. =>
    none

/-- The slot whose value a request returns. -/
def returns? : Phase → Option (Nat × Artifact)
  | .leaving n (.ok a) | .done n (.ok a) => some (n, a)
  | _ => none

private theorem slot?_of_holds? {p : Phase} {n : Nat} (h : p.holds? = some n) :
    p.slot? = some n := by
  cases p <;> first | exact h | exact nomatch h

private theorem holds?_of_blank? {p : Phase} {n : Nat} (h : p.blank? = some n) :
    p.holds? = some n := by
  cases p <;> first | exact h | exact nomatch h

private theorem blank?_of_lowers? {p : Phase} {n : Nat} (h : p.lowers? = some n) :
    p.blank? = some n := by
  cases p <;> first | exact h | exact nomatch h

end Phase

/-- A request under way; times are counted in clearings. -/
structure Flight where
  phase : Phase
  /-- When the request began. -/
  begun : Nat
  /-- When it last found or made the slot of its key. -/
  looked : Nat
  /-- When it was last allowed to lower the function. -/
  started : Nat

/-- A cache with the requests on it; times are counted in clearings. -/
structure System where
  cache : Cache
  /-- How many clearings there were. -/
  clears : Nat
  /-- The requests by number. -/
  flight : Nat → Flight
  /-- The label a slot was made for, and when. -/
  origin : Nat → Label × Nat
  /-- When the lowering was started that filled a slot. -/
  filled : Nat → Nat

namespace System

/-- Nothing was requested. -/
def start : System :=
  ⟨.empty, 0, fun _ => ⟨.idle, 0, 0, 0⟩, fun _ => ((⟨[]⟩, default), 0), fun _ => 0⟩

/-- Change the state of a request. -/
def put (s : System) (r : Nat) (x : Flight) : System :=
  { s with flight := Function.update s.flight r x }

/-- Let a request go on to a phase. -/
def goto (s : System) (r : Nat) (p : Phase) : System := s.put r { s.flight r with phase := p }

/-- Put another cache in place. -/
def withCache (s : System) (c : Cache) : System := { s with cache := c }

end System

/-- **One atomic step**, of the request `r` for the key `key r` or of a clearing. -/
inductive System.Step (key : Nat → CacheKey) : System → System → Prop where
  | begin (s : System) (r : Nat) : (s.flight r).phase = .idle →
      System.Step key s (s.put r { s.flight r with phase := .looking, begun := s.clears })
  | clear (s : System) : System.Step key s { s with cache := s.cache.clear, clears := s.clears + 1 }
  | find (s : System) (r n : Nat) : (s.flight r).phase = .looking →
      s.cache.slot? (key r) = some n →
      System.Step key s (s.put r { s.flight r with phase := .waiting n, looked := s.clears })
  | miss (s : System) (r : Nat) : (s.flight r).phase = .looking →
      s.cache.slot? (key r) = none → System.Step key s (s.goto r .missed)
  | create (s : System) (r n : Nat) (c : Cache) : (s.flight r).phase = .missed →
      s.cache.slotFor (key r) = (n, c) →
      System.Step key s { s.put r { s.flight r with phase := .waiting n, looked := s.clears } with
        cache := c, origin := Function.update s.origin n ((key r).label, s.clears) }
  | lock (s : System) (r n : Nat) : (s.flight r).phase = .waiting n →
      s.cache.isBusy n = false →
      System.Step key s ((s.goto r (.testing n)).withCache (s.cache.setBusy n true))
  | hit (s : System) (r n : Nat) (e : Entry) : (s.flight r).phase = .testing n →
      s.cache.content? n = some e →
      System.Step key s ((s.goto r (.leaving n (.ok e.artifact))).withCache (s.cache.countUse n))
  | empty (s : System) (r n : Nat) : (s.flight r).phase = .testing n →
      s.cache.content? n = none → System.Step key s (s.goto r (.checking n))
  | current (s : System) (r n : Nat) : (s.flight r).phase = .checking n →
      s.cache.serves (key r) n = true →
      System.Step key s (s.put r { s.flight r with phase := .lowering n, started := s.clears })
  | detached (s : System) (r n : Nat) : (s.flight r).phase = .checking n →
      s.cache.serves (key r) n = false → System.Step key s (s.goto r (.retrying n))
  | retry (s : System) (r n : Nat) : (s.flight r).phase = .retrying n →
      System.Step key s ((s.goto r .looking).withCache (s.cache.setBusy n false))
  | succeed (s : System) (r n : Nat) (a : Artifact) : (s.flight r).phase = .lowering n →
      System.Step key s (s.goto r (.filling n a))
  | fail (s : System) (r n : Nat) (e : Fault) : (s.flight r).phase = .lowering n →
      System.Step key s (s.goto r (.failing n e))
  | panic (s : System) (r n : Nat) : (s.flight r).phase = .lowering n →
      System.Step key s (s.goto r (.leaving n .panic))
  | fill (s : System) (r n : Nat) (a : Artifact) : (s.flight r).phase = .filling n a →
      System.Step key s { s.goto r (.leaving n (.ok a)) with
        cache := s.cache.fill n a, filled := Function.update s.filled n (s.flight r).started }
  | remove (s : System) (r n : Nat) (e : Fault) : (s.flight r).phase = .failing n e →
      System.Step key s ((s.goto r (.leaving n (.fault e))).withCache (s.cache.detach (key r) n))
  | unlock (s : System) (r n : Nat) (o : Outcome Artifact) : (s.flight r).phase = .leaving n o →
      System.Step key s ((s.goto r (.done n o)).withCache (s.cache.setBusy n false))

/-- What is reached in some order of steps. -/
def Reachable (key : Nat → CacheKey) : System → Prop :=
  Relation.ReflTransGen (System.Step key) System.start

/-! ### The invariant -/

namespace System

/-- Something can still come of a slot or has come of it: it is filled, or the one of its label, or
a function is being lowered for it. -/
def Alive (s : System) (n : Nat) : Prop :=
  s.cache.content? n ≠ none ∨ (∃ l, s.cache.slotOf? l = some n) ∨
    ∃ r, (s.flight r).phase.lowers? = some n

end System

/-- **The invariant of the steps.** -/
structure Sound (key : Nat → CacheKey) (s : System) : Prop where
  proper : s.cache.Proper
  /-- The slot of a label was made after the last clearing. -/
  mapped : ∀ l n, s.cache.slotOf? l = some n → s.origin n = (l, s.clears)
  begun : ∀ r, (s.flight r).begun ≤ s.clears
  /-- A slot that a request has is one for its label, and was made when it was looked up. -/
  slot : ∀ r n, (s.flight r).phase.slot? = some n → n < s.cache.slots.size ∧
    s.origin n = ((key r).label, (s.flight r).looked) ∧ (s.flight r).begun ≤ (s.flight r).looked
  busy : ∀ r n, (s.flight r).phase.holds? = some n → s.cache.isBusy n = true
  /-- One request works on a slot. -/
  owner : ∀ r r' n, (s.flight r).phase.holds? = some n → (s.flight r').phase.holds? = some n →
    r = r'
  blank : ∀ r n, (s.flight r).phase.blank? = some n → s.cache.content? n = none
  /-- A lowering is started between the clearings between which its slot was looked up. -/
  started : ∀ r n, (s.flight r).phase.lowers? = some n →
    (s.flight r).started = (s.flight r).looked
  /-- Until the next clearing, a slot that is alive is the one of its label. -/
  alive : ∀ n, s.Alive n → (s.origin n).2 < s.clears ∨
    ((s.origin n).2 = s.clears ∧ s.cache.slotOf? (s.origin n).1 = some n)
  /-- For one label, one slot that was made between two clearings is alive. -/
  unique : ∀ n n', s.Alive n → s.Alive n' → s.origin n = s.origin n' → n = n'
  /-- A value was lowered between the clearings between which its slot was made. -/
  filled : ∀ n, s.cache.content? n ≠ none → s.filled n = (s.origin n).2
  returns : ∀ r n a, (s.flight r).phase.returns? = some (n, a) →
    (s.cache.content? n).map (·.artifact) = some a

namespace Sound

variable {key : Nat → CacheKey} {s : System} {r n : Nat}

/-- At the start nothing was lowered and no request is in flight. -/
theorem start (key : Nat → CacheKey) : Sound key .start := by
  refine ⟨Cache.proper_empty, ?_, ?_, ?_, ?_, ?_, ?_, ?_, ?_, ?_, ?_, ?_⟩
  · exact fun _ _ h => nomatch h
  · exact fun _ => Nat.le_refl 0
  · exact fun _ _ h => nomatch h
  · exact fun _ _ h => nomatch h
  · exact fun _ _ _ h => nomatch h
  · exact fun _ _ h => nomatch h
  · exact fun _ _ h => nomatch h
  · rintro n (h | ⟨l, h⟩ | ⟨r, h⟩)
    · exact absurd rfl h
    · exact nomatch h
    · exact nomatch h
  · rintro n n' (h | ⟨l, h⟩ | ⟨r, h⟩)
    · exact absurd rfl h
    · exact nomatch h
    · exact nomatch h
  · exact fun _ h => absurd rfl h
  · exact fun _ _ _ h => nomatch h

/-- Only one request goes on. -/
theorem flight_put (s : System) (r r' : Nat) (x : Flight) :
    (s.put r x).flight r' = if r' = r then x else s.flight r' :=
  Function.update_apply _ _ _ _

/-- Changing one request, which gets no slot that it has no right to. -/
private theorem put (h : Sound key s) {x : Flight} (hbegun : x.begun ≤ s.clears)
    (hslot : ∀ n, x.phase.slot? = some n → n < s.cache.slots.size ∧
      s.origin n = ((key r).label, x.looked) ∧ x.begun ≤ x.looked)
    (hholds : ∀ n, x.phase.holds? = some n → s.cache.isBusy n = true ∧
      ∀ r', r' ≠ r → (s.flight r').phase.holds? ≠ some n)
    (hblank : ∀ n, x.phase.blank? = some n → s.cache.content? n = none)
    (hlowers : ∀ n, x.phase.lowers? = some n → x.started = x.looked ∧ s.Alive n)
    (hreturns : ∀ n a, x.phase.returns? = some (n, a) →
      (s.cache.content? n).map (·.artifact) = some a) : Sound key (s.put r x) := by
  have halive (n : Nat) (hn : (s.put r x).Alive n) : s.Alive n := by
    obtain hn | hn | ⟨r', hr'⟩ := hn
    · exact Or.inl hn
    · exact Or.inr (Or.inl hn)
    · rw [flight_put] at hr'
      split at hr'
      · exact (hlowers n hr').2
      · exact Or.inr (Or.inr ⟨r', hr'⟩)
  refine ⟨h.proper, h.mapped, fun r' => ?_, fun r' n hn => ?_, fun r' n hn => ?_,
    fun r₁ r₂ n h₁ h₂ => ?_, fun r' n hn => ?_, fun r' n hn => ?_,
    fun n hn => h.alive n (halive n hn),
    fun n n' hn hn' => h.unique n n' (halive n hn) (halive n' hn'), h.filled, fun r' n a hn => ?_⟩
  · rw [flight_put]
    split
    · exact hbegun
    · exact h.begun r'
  · rw [flight_put] at hn ⊢
    split at hn
    · next hr => subst hr; rw [if_pos rfl]; exact hslot n hn
    · next hr => rw [if_neg hr]; exact h.slot r' n hn
  · rw [flight_put] at hn
    split at hn
    · exact (hholds n hn).1
    · exact h.busy r' n hn
  · rw [flight_put] at h₁ h₂
    split at h₁ <;> split at h₂
    · next hr₁ hr₂ => rw [hr₁, hr₂]
    · next hr₂ => exact absurd h₂ ((hholds n h₁).2 r₂ hr₂)
    · next hr₁ _ => exact absurd h₁ ((hholds n h₂).2 r₁ hr₁)
    · exact h.owner r₁ r₂ n h₁ h₂
  · rw [flight_put] at hn
    split at hn
    · exact hblank n hn
    · exact h.blank r' n hn
  · rw [flight_put] at hn ⊢
    split at hn
    · next hr => rw [if_pos hr]; exact (hlowers n hn).1
    · next hr => rw [if_neg hr]; exact h.started r' n hn
  · rw [flight_put] at hn
    split at hn
    · exact hreturns n a hn
    · exact h.returns r' n a hn

/-- A slot that is alive was made. -/
private theorem lt_of_alive (h : Sound key s) (hn : s.Alive n) : n < s.cache.slots.size := by
  obtain hn | ⟨l, hl⟩ | ⟨r, hr⟩ := hn
  · by_contra hge
    refine hn ?_
    unfold Cache.content?
    rw [Array.getElem?_eq_none (Nat.le_of_not_lt hge)]
    rfl
  · exact h.proper.lt_of_slotOf? hl
  · exact (h.slot r n (Phase.slot?_of_holds? (Phase.holds?_of_blank?
      (Phase.blank?_of_lowers? hr)))).1

/-- Changing the cache, but not the artifacts in it. Slots may be taken away from labels. -/
theorem withCache (h : Sound key s) {c : Cache} (hproper : c.Proper)
    (hsize : c.slots.size = s.cache.slots.size)
    (hslot : ∀ l n, c.slotOf? l = some n → s.cache.slotOf? l = some n)
    (hkept : ∀ n, (s.withCache c).Alive n → s.cache.slotOf? (s.origin n).1 = some n →
      c.slotOf? (s.origin n).1 = some n)
    (hcontent : ∀ n, (c.content? n).map (·.artifact) = (s.cache.content? n).map (·.artifact))
    (hbusy : ∀ r n, (s.flight r).phase.holds? = some n → c.isBusy n = true) :
    Sound key (s.withCache c) := by
  have hnone (n : Nat) : c.content? n = none ↔ s.cache.content? n = none := by
    have := hcontent n
    constructor
    · intro hn
      rw [hn] at this
      exact Option.map_eq_none_iff.mp this.symm
    · intro hn
      rw [hn] at this
      exact Option.map_eq_none_iff.mp this
  have halive (n : Nat) (hn : (s.withCache c).Alive n) : s.Alive n := by
    obtain hn | ⟨l, hl⟩ | hn := hn
    · exact Or.inl fun hc => hn ((hnone n).mpr hc)
    · exact Or.inr (Or.inl ⟨l, hslot l n hl⟩)
    · exact Or.inr (Or.inr hn)
  refine ⟨hproper, fun l n hl => h.mapped l n (hslot l n hl), h.begun, fun r n hn => ?_, hbusy,
    h.owner, fun r n hn => (hnone n).mpr (h.blank r n hn), h.started, fun n hn => ?_,
    fun n n' hn hn' => h.unique n n' (halive n hn) (halive n' hn'),
    fun n hn => h.filled n fun hc => hn ((hnone n).mpr hc),
    fun r n a hn => (hcontent n).trans (h.returns r n a hn)⟩
  · obtain ⟨hlt, hrest⟩ := h.slot r n hn
    exact ⟨hsize ▸ hlt, hrest⟩
  · obtain hlt | ⟨heq, hmap⟩ := h.alive n (halive n hn)
    · exact Or.inl hlt
    · exact Or.inr ⟨heq, hkept n hn hmap⟩

/-- Beginning or ending the work on a slot. -/
theorem setBusy (h : Sound key s) (hn : n < s.cache.slots.size) (b : Bool)
    (hb : b = false → ∀ r, (s.flight r).phase.holds? ≠ some n) :
    Sound key (s.withCache (s.cache.setBusy n b)) := by
  refine h.withCache (h.proper.modify n _) (Cache.size_modify _ _ _) (fun _ _ hl => hl)
    (fun _ _ hm => hm) (fun m => by rw [Cache.content?_setBusy]) fun r m hr => ?_
  rw [Cache.isBusy_setBusy hn]
  split
  · next hm =>
    subst hm
    cases b with
    | true => rfl
    | false => exact absurd hr (hb rfl r)
  · exact h.busy r m hr

/-- Changing an entry, but not its artifact. -/
theorem modifyEntry (h : Sound key s) (n : Nat) {f : Entry → Entry}
    (hf : ∀ e, (f e).artifact = e.artifact) :
    Sound key (s.withCache (s.cache.modifyEntry n f)) := by
  refine h.withCache (h.proper.modify n _) (Cache.size_modify _ _ _) (fun _ _ hl => hl)
    (fun _ _ hm => hm) (Cache.artifact_modifyEntry s.cache n hf) fun r m hr => ?_
  rw [Cache.isBusy_modifyEntry]
  exact h.busy r m hr

/-- Counting a request that was served. -/
private theorem countUse (h : Sound key s) (n : Nat) :
    Sound key (s.withCache (s.cache.countUse n)) :=
  h.modifyEntry n fun _ => rfl

/-- Taking away a slot that is empty and that no function is lowered for. -/
private theorem detach (h : Sound key s) (k : CacheKey) (hn : s.cache.content? n = none)
    (hl : ∀ r, (s.flight r).phase.lowers? ≠ some n) :
    Sound key (s.withCache (s.cache.detach k n)) := by
  have hshrinks (l : Label) (m : Nat) (hm : (s.cache.detach k n).slotOf? l = some m) :
      s.cache.slotOf? l = some m ∧ ¬(l = k.label ∧ s.cache.slotOf? k.label = some n) := by
    rw [Cache.slotOf?_detach] at hm
    split at hm
    · exact nomatch hm
    · next hne => exact ⟨hm, hne⟩
  refine h.withCache (h.proper.detach k n) ?_ (fun l m hm => (hshrinks l m hm).1)
    (fun m hm hmap => ?_) (fun m => by rw [Cache.content?_detach]) fun r m hr => ?_
  · rw [Cache.slots_detach]
  · rw [Cache.slotOf?_detach]
    split
    · next hcond =>
      -- the slot that is taken away is not alive any more
      rw [hcond.1, hcond.2] at hmap
      obtain rfl := Option.some.inj hmap
      obtain hc | ⟨l, hl'⟩ | ⟨r, hr⟩ := hm
      · exact absurd ((Cache.content?_detach _ _ _ _).trans hn) hc
      · obtain ⟨hslot, hne⟩ := hshrinks l n hl'
        exact absurd ⟨h.proper.label_inj hslot hcond.2, hcond.2⟩ hne
      · exact absurd hr (hl r)
    · exact hmap
  · rw [Cache.isBusy_detach]
    exact h.busy r m hr

/-- No slot that is alive was made for a label since the last clearing, if the label has none. -/
private theorem origin_ne (h : Sound key s) {l : Label} (hl : s.cache.slotOf? l = none)
    (hn : s.Alive n) : s.origin n ≠ (l, s.clears) := by
  intro ho
  obtain hlt | ⟨-, hmap⟩ := h.alive n hn
  · rw [ho] at hlt
    exact absurd hlt (Nat.lt_irrefl _)
  · rw [ho, hl] at hmap
    exact nomatch hmap

/-- What is alive when a slot is made is the new slot, or was alive before. -/
private theorem alive_make {k : CacheKey} (hslot : (s.cache.slotFor k).1 = n) {m : Nat}
    (hm : ({ s with
      cache := (s.cache.slotFor k).2
      origin := Function.update s.origin n (k.label, s.clears) } : System).Alive m) :
    m = n ∨ m ≠ n ∧ s.Alive m := by
  by_cases heq : m = n
  · exact Or.inl heq
  · refine Or.inr ⟨heq, ?_⟩
    obtain hm | ⟨l, hm⟩ | hm := hm
    · exact Or.inl ((Cache.content?_slotFor s.cache k m).symm ▸ hm)
    · change (s.cache.slotFor k).2.slotOf? l = some m at hm
      rw [Cache.slotOf?_slotFor, hslot] at hm
      split at hm
      · exact absurd (Option.some.inj hm).symm heq
      · exact Or.inr (Or.inl ⟨l, hm⟩)
    · exact Or.inr (Or.inr hm)

/-- Making the slot of a key. -/
private theorem make (h : Sound key s) (k : CacheKey) :
    Sound key { s with
      cache := (s.cache.slotFor k).2
      origin := Function.update s.origin (s.cache.slotFor k).1 (k.label, s.clears) } := by
  cases hl : s.cache.slotOf? k.label with
  | some n =>
    rw [Cache.slotFor_of_some hl, ← h.mapped _ n hl, Function.update_eq_self]
    exact h
  | none =>
    have hsize : (s.cache.slotFor k).2.slots.size = s.cache.slots.size + 1 := by
      rw [Cache.slotFor_of_none hl, Array.size_push]
    have hslot : (s.cache.slotFor k).1 = s.cache.slots.size := by
      rw [Cache.slotFor_of_none hl]
    rw [hslot]
    -- the slots that were made before keep their origins
    have horigin (m : Nat) (hm : m < s.cache.slots.size) :
        Function.update s.origin s.cache.slots.size (k.label, s.clears) m = s.origin m :=
      Function.update_of_ne (Nat.ne_of_lt hm) _ _
    refine ⟨h.proper.slotFor k, fun l m hm => ?_, h.begun, fun r m hm => ?_, fun r m hm => ?_,
      h.owner, fun r m hm => ?_, h.started, fun m hm => ?_, fun m m' hm hm' ho => ?_,
      fun m hm => ?_, fun r m a hm => ?_⟩
    · dsimp only at hm ⊢
      rw [Cache.slotOf?_slotFor, hslot] at hm
      split at hm
      · next heq =>
        obtain rfl := Option.some.inj hm
        rw [heq, Function.update_self]
      · rw [horigin m (h.proper.lt_of_slotOf? hm)]
        exact h.mapped l m hm
    · obtain ⟨hltm, ho, hb⟩ := h.slot r m hm
      exact ⟨hsize ▸ Nat.lt_succ_of_lt hltm, (horigin m hltm).trans ho, hb⟩
    · exact (Cache.isBusy_slotFor s.cache k m).trans (h.busy r m hm)
    · exact (Cache.content?_slotFor s.cache k m).trans (h.blank r m hm)
    · obtain rfl | ⟨hne, hm⟩ := alive_make hslot hm
      · refine Or.inr ?_
        dsimp only
        rw [Function.update_self]
        exact ⟨rfl, by rw [Cache.slotOf?_slotFor, if_pos rfl, hslot]⟩
      · dsimp only
        rw [Function.update_of_ne hne, Cache.slotOf?_slotFor]
        obtain hlt | ⟨heq, hmap⟩ := h.alive m hm
        · exact Or.inl hlt
        · refine Or.inr ⟨heq, ?_⟩
          split
          · next hlabel => exact absurd (Prod.ext hlabel heq) (h.origin_ne hl hm)
          · exact hmap
    · dsimp only at ho
      obtain rfl | ⟨hne, hm⟩ := alive_make hslot hm <;>
        obtain rfl | ⟨hne', hm'⟩ := alive_make hslot hm'
      · rfl
      · rw [Function.update_self, Function.update_of_ne hne'] at ho
        exact absurd ho.symm (h.origin_ne hl hm')
      · rw [Function.update_self, Function.update_of_ne hne] at ho
        exact absurd ho (h.origin_ne hl hm)
      · rw [Function.update_of_ne hne, Function.update_of_ne hne'] at ho
        exact h.unique m m' hm hm' ho
    · dsimp only at hm ⊢
      rw [Cache.content?_slotFor] at hm
      rw [horigin m (h.lt_of_alive (Or.inl hm))]
      exact h.filled m hm
    · dsimp only
      rw [Cache.content?_slotFor]
      exact h.returns r m a hm

/-- What is alive when a slot is filled was alive before: a function was lowered for the slot. -/
private theorem alive_fill {a : Artifact} (hlt : n < s.cache.slots.size)
    (hr : (s.flight r).phase = .filling n a) {m : Nat}
    (hm : ({ s.goto r (.leaving n (.ok a)) with
      cache := s.cache.fill n a
      filled := Function.update s.filled n (s.flight r).started } : System).Alive m) :
    s.Alive m := by
  by_cases hmn : n = m
  · subst hmn
    exact Or.inr (Or.inr ⟨r, by rw [hr]; rfl⟩)
  · obtain hm | hm | ⟨r', hr'⟩ := hm
    · refine Or.inl fun hc => hm ?_
      exact (Cache.content?_fill hlt m a).trans ((if_neg hmn).trans hc)
    · exact Or.inr (Or.inl hm)
    · refine Or.inr (Or.inr ⟨r', ?_⟩)
      change ((s.put r _).flight r').phase.lowers? = some m at hr'
      rw [flight_put] at hr'
      split at hr'
      · exact nomatch hr'
      · exact hr'

/-- Filling the slot that a function was lowered for. -/
private theorem fill (h : Sound key s) {a : Artifact} (hr : (s.flight r).phase = .filling n a) :
    Sound key { s.goto r (.leaving n (.ok a)) with
      cache := s.cache.fill n a
      filled := Function.update s.filled n (s.flight r).started } := by
  have hslot := h.slot r n (by rw [hr]; rfl)
  have hempty := h.blank r n (by rw [hr]; rfl)
  have hstarted := h.started r n (by rw [hr]; rfl)
  have hholds : (s.flight r).phase.holds? = some n := by rw [hr]; rfl
  have hother (r' : Nat) (hr' : r' ≠ r) : (s.flight r').phase.holds? ≠ some n := fun hn =>
    hr' (h.owner r' r n hn hholds)
  have hcontent (m : Nat) (hm : m ≠ n) : (s.cache.fill n a).content? m = s.cache.content? m := by
    rw [Cache.content?_fill hslot.1, if_neg (Ne.symm hm)]
  have hself : (s.cache.fill n a).content? n = some ⟨a, 0, none⟩ := by
    rw [Cache.content?_fill hslot.1, if_pos rfl]
  have hflight (r' : Nat) : (s.goto r (.leaving n (.ok a))).flight r' =
      if r' = r then { s.flight r with phase := .leaving n (.ok a) } else s.flight r' :=
    flight_put s r r' _
  refine ⟨h.proper.modify n _, h.mapped, fun r' => ?_, fun r' m hm => ?_, fun r' m hm => ?_,
    fun r₁ r₂ m h₁ h₂ => ?_, fun r' m hm => ?_, fun r' m hm => ?_,
    fun m hm => h.alive m (alive_fill hslot.1 hr hm),
    fun m m' hm hm' => h.unique m m' (alive_fill hslot.1 hr hm) (alive_fill hslot.1 hr hm'),
    fun m hm => ?_, fun r' m b hm => ?_⟩
  · dsimp only
    rw [hflight]
    split
    · exact h.begun r
    · exact h.begun r'
  · dsimp only at hm ⊢
    rw [hflight] at hm ⊢
    have hsize : (s.cache.fill n a).slots.size = s.cache.slots.size := Cache.size_modify _ _ _
    rw [hsize]
    split at hm
    · next heq =>
      obtain rfl := Option.some.inj hm
      rw [if_pos heq, heq]
      exact hslot
    · next hne =>
      rw [if_neg hne]
      exact h.slot r' m hm
  · dsimp only at hm ⊢
    rw [hflight] at hm
    rw [Cache.isBusy_fill]
    split at hm
    · obtain rfl := Option.some.inj hm
      exact h.busy r n hholds
    · exact h.busy r' m hm
  · dsimp only at h₁ h₂
    rw [hflight] at h₁ h₂
    split at h₁ <;> split at h₂
    · next hr₁ hr₂ => rw [hr₁, hr₂]
    · next hr₂ => exact absurd (Option.some.inj h₁ ▸ h₂) (hother r₂ hr₂)
    · next hr₁ _ => exact absurd (Option.some.inj h₂ ▸ h₁) (hother r₁ hr₁)
    · exact h.owner r₁ r₂ m h₁ h₂
  · dsimp only at hm ⊢
    rw [hflight] at hm
    split at hm
    · exact nomatch hm
    · next hne =>
      -- nobody else works on the slot, so nobody else takes it for empty
      rw [hcontent m]
      · exact h.blank r' m hm
      · rintro rfl
        exact hother r' hne (Phase.holds?_of_blank? hm)
  · dsimp only at hm ⊢
    rw [hflight] at hm ⊢
    split at hm
    · exact nomatch hm
    · next hne =>
      rw [if_neg hne]
      exact h.started r' m hm
  · dsimp only at hm ⊢
    by_cases hmn : m = n
    · rw [hmn, Function.update_self]
      exact hstarted.trans (congrArg Prod.snd hslot.2.1).symm
    · rw [Function.update_of_ne hmn]
      exact h.filled m fun hc => hm ((hcontent m hmn).trans hc)
  · dsimp only at hm ⊢
    rw [hflight] at hm
    split at hm
    · obtain ⟨rfl, rfl⟩ := Prod.mk.inj (Option.some.inj hm)
      rw [hself]
      rfl
    · -- nobody can have returned the value of a slot that was empty until now
      have hvalue := h.returns r' m b hm
      rw [hcontent m]
      · exact hvalue
      · rintro rfl
        rw [hempty] at hvalue
        exact nomatch hvalue

private theorem clear (h : Sound key s) :
    Sound key { s with cache := s.cache.clear, clears := s.clears + 1 } := by
  have halive (n : Nat) (hn : ({ s with
      cache := s.cache.clear, clears := s.clears + 1 } : System).Alive n) : s.Alive n := by
    obtain hn | ⟨l, hl⟩ | hn := hn
    · exact Or.inl hn
    · exact nomatch hl
    · exact Or.inr (Or.inr hn)
  refine ⟨Cache.proper_clear _, (fun _ _ h => nomatch h), fun r => Nat.le_succ_of_le (h.begun r),
    h.slot, h.busy, h.owner, h.blank, h.started, fun n hn => Or.inl ?_,
    fun n n' hn hn' => h.unique n n' (halive n hn) (halive n' hn'), h.filled, h.returns⟩
  obtain hlt | ⟨heq, -⟩ := h.alive n (halive n hn)
  · exact Nat.lt_succ_of_lt hlt
  · exact heq ▸ Nat.lt_succ_self _

/-- Going on with what a request has. -/
private theorem goto (h : Sound key s) {p : Phase}
    (hslot : ∀ m, p.slot? = some m → (s.flight r).phase.slot? = some m)
    (hholds : ∀ m, p.holds? = some m → (s.flight r).phase.holds? = some m)
    (hblank : ∀ m, p.blank? = some m → s.cache.content? m = none)
    (hlowers : ∀ m, p.lowers? = some m → (s.flight r).phase.lowers? = some m)
    (hreturns : ∀ m a, p.returns? = some (m, a) →
      (s.cache.content? m).map (·.artifact) = some a) : Sound key (s.goto r p) := by
  refine h.put (h.begun r) (fun m hm => h.slot r m (hslot m hm)) (fun m hm => ?_) hblank
    (fun m hm => ?_) hreturns
  · refine ⟨h.busy r m (hholds m hm), fun r' hr' hm' => ?_⟩
    exact hr' (h.owner r' r m hm' (hholds m hm))
  · exact ⟨h.started r m (hlowers m hm), Or.inr (Or.inr ⟨r, hlowers m hm⟩)⟩

/-- Nobody else works on the slot of a request. -/
private theorem holds_goto_ne (h : Sound key s) {p : Phase}
    (hr : (s.flight r).phase.holds? = some n) (hp : p.holds? = none) (r' : Nat) :
    ((s.goto r p).flight r').phase.holds? ≠ some n := by
  intro hn
  change ((s.put r _).flight r').phase.holds? = some n at hn
  rw [flight_put] at hn
  split at hn
  · exact nomatch hp.symm.trans hn
  · next hne => exact hne (h.owner r' r n hn hr)

/-- **One step.** -/
theorem step {s' : System} (h : Sound key s) (hstep : System.Step key s s') : Sound key s' := by
  cases hstep with
  | begin r hr =>
    refine h.put (Nat.le_refl _) ?_ ?_ ?_ ?_ ?_
    all_goals intros; contradiction
  | clear => exact h.clear
  | find r n hr hn =>
    rw [Cache.slot?_eq] at hn
    refine h.put (h.begun r) (fun m hm => ?_) ?_ ?_ ?_ ?_
    · obtain rfl := Option.some.inj hm
      exact ⟨h.proper.lt_of_slotOf? hn, h.mapped _ _ hn, h.begun r⟩
    all_goals intros; contradiction
  | miss r hr hn =>
    refine h.goto ?_ ?_ ?_ ?_ ?_
    all_goals intros; contradiction
  | create r n c hr hn =>
    have hmake := h.make (key r)
    have hlt := Cache.lt_slotFor h.proper (key r)
    rw [hn] at hmake hlt
    refine hmake.put (h.begun r) (fun m hm => ?_) ?_ ?_ ?_ ?_
    · obtain rfl := Option.some.inj hm
      exact ⟨hlt, Function.update_self _ _ _, h.begun r⟩
    all_goals intros; contradiction
  | lock r n hr hn =>
    have hlt := (h.slot r n (by rw [hr]; rfl)).1
    have hlock := h.setBusy hlt true (fun hb => nomatch hb)
    refine hlock.put (h.begun r) (fun m hm => hlock.slot r m (by rw [← hm]; exact hr ▸ rfl))
      (fun m hm => ?_) ?_ ?_ ?_
    · obtain rfl := Option.some.inj hm
      refine ⟨?_, fun r' _ hr' => ?_⟩
      · exact (Cache.isBusy_setBusy hlt n true).trans (if_pos rfl)
      · have := h.busy r' n hr'
        rw [hn] at this
        exact nomatch this
    all_goals intros; contradiction
  | hit r n e hr hn =>
    have hcount := h.countUse n
    refine hcount.goto (fun m hm => hr ▸ hm) (fun m hm => hr ▸ hm) ?_ ?_ (fun m a hm => ?_)
    · intros; contradiction
    · intros; contradiction
    · obtain ⟨rfl, rfl⟩ := Prod.mk.inj (Option.some.inj hm)
      change ((s.cache.countUse n).content? n).map _ = _
      unfold Cache.countUse
      rw [Cache.content?_modifyEntry, if_pos rfl, hn]
      rfl
  | empty r n hr hn =>
    refine h.goto (fun m hm => hr ▸ hm) (fun m hm => hr ▸ hm) (fun m hm => ?_) ?_ ?_
    · obtain rfl := Option.some.inj hm
      exact hn
    all_goals intros; contradiction
  | current r n hr hn =>
    rw [Cache.serves_iff] at hn
    have hslot := h.slot r n (by rw [hr]; rfl)
    have hholds : (s.flight r).phase.holds? = some n := by rw [hr]; rfl
    have hlooked : s.clears = (s.flight r).looked :=
      congrArg Prod.snd ((h.mapped _ n hn).symm.trans hslot.2.1)
    refine h.put (h.begun r) (fun m hm => h.slot r m (hr ▸ hm)) (fun m hm => ?_)
      (fun m hm => h.blank r m (hr ▸ hm)) (fun m hm => ?_) ?_
    · obtain rfl := Option.some.inj hm
      exact ⟨h.busy r n hholds, fun r' hr' hm' => hr' (h.owner r' r n hm' hholds)⟩
    · obtain rfl := Option.some.inj hm
      exact ⟨hlooked, Or.inr (Or.inl ⟨_, hn⟩)⟩
    · intros; contradiction
  | detached r n hr hn =>
    refine h.goto (fun m hm => hr ▸ hm) (fun m hm => hr ▸ hm) ?_ ?_ ?_
    all_goals intros; contradiction
  | retry r n hr =>
    have hlt := (h.slot r n (by rw [hr]; rfl)).1
    have hleave : Sound key (s.goto r .looking) := by
      refine h.goto ?_ ?_ ?_ ?_ ?_
      all_goals intros; contradiction
    exact hleave.setBusy hlt false fun _ => h.holds_goto_ne (by rw [hr]; rfl) rfl
  | succeed r n a hr =>
    refine h.goto (fun m hm => hr ▸ hm) (fun m hm => hr ▸ hm) (fun m hm => h.blank r m (hr ▸ hm))
      (fun m hm => hr ▸ hm) ?_
    intros; contradiction
  | fail r n e hr =>
    refine h.goto (fun m hm => hr ▸ hm) (fun m hm => hr ▸ hm) (fun m hm => h.blank r m (hr ▸ hm))
      (fun m hm => hr ▸ hm) ?_
    intros; contradiction
  | panic r n hr =>
    refine h.goto (fun m hm => hr ▸ hm) (fun m hm => hr ▸ hm) ?_ ?_ ?_
    all_goals intros; contradiction
  | fill r n a hr => exact h.fill hr
  | remove r n e hr =>
    have hholds : (s.flight r).phase.holds? = some n := by rw [hr]; rfl
    have hempty := h.blank r n (by rw [hr]; rfl)
    have hleave : Sound key (s.goto r (.leaving n (.fault e))) := by
      refine h.goto (fun m hm => hr ▸ hm) (fun m hm => hr ▸ hm) ?_ ?_ ?_
      all_goals intros; contradiction
    refine hleave.detach (key r) hempty fun r' hr' => ?_
    change ((s.put r _).flight r').phase.lowers? = some n at hr'
    rw [flight_put] at hr'
    split at hr'
    · exact nomatch hr'
    · next hne => exact hne (h.owner r' r n (Phase.holds?_of_blank? (Phase.blank?_of_lowers? hr'))
        hholds)
  | unlock r n o hr =>
    have hlt := (h.slot r n (by rw [hr]; rfl)).1
    have hleave : Sound key (s.goto r (.done n o)) := by
      refine h.goto (fun m hm => hr ▸ hm) ?_ ?_ ?_ (fun m a hm => ?_)
      · intros; contradiction
      · intros; contradiction
      · intros; contradiction
      · refine h.returns r m a ?_
        rw [hr]
        cases o <;> exact hm
    exact hleave.setBusy hlt false fun _ => h.holds_goto_ne (by rw [hr]; rfl) rfl

/-- **Every order of steps.** -/
theorem of_reachable (h : Reachable key s) : Sound key s := by
  induction h with
  | refl => exact start key
  | tail _ hstep ih => exact ih.step hstep

end Sound

/-! ### What the invariant says of requests -/

/-- **Single flight and agreement.** In every order of steps of any requests and clearings:

* two requests for one key that lower functions at the same time were allowed to on different sides
  of a clearing;
* requests for one key that last looked up their slots between the same two clearings return the
  same value;
* the lowering of a value that a request returns did not begin before a clearing that was over when
  the request began. -/
theorem Reachable.single_flight {key : Nat → CacheKey} {s : System} (h : Reachable key s) :
    (∀ r r' n n', r ≠ r' → (key r).same (key r') = true →
      (s.flight r).phase.lowers? = some n → (s.flight r').phase.lowers? = some n' →
      (s.flight r).started ≠ (s.flight r').started) ∧
    (∀ r r' n n' a a', (key r).same (key r') = true →
      (s.flight r).phase = .done n (.ok a) → (s.flight r').phase = .done n' (.ok a') →
      (s.flight r).looked = (s.flight r').looked → n = n' ∧ a = a') ∧
    (∀ r n a, (s.flight r).phase = .done n (.ok a) → (s.flight r).begun ≤ s.filled n) := by
  have hs := Sound.of_reachable h
  refine ⟨?_, ?_, ?_⟩
  · intro r r' n n' hne hkey hr hr' hstarted
    rw [CacheKey.same_iff] at hkey
    have hholds := Phase.holds?_of_blank? (Phase.blank?_of_lowers? hr)
    have hholds' := Phase.holds?_of_blank? (Phase.blank?_of_lowers? hr')
    have horigin := (hs.slot r n (Phase.slot?_of_holds? hholds)).2.1
    have horigin' := (hs.slot r' n' (Phase.slot?_of_holds? hholds')).2.1
    rw [hs.started r n hr, hs.started r' n' hr'] at hstarted
    obtain rfl := hs.unique n n' (Or.inr (Or.inr ⟨r, hr⟩)) (Or.inr (Or.inr ⟨r', hr'⟩))
      (by rw [horigin, horigin', hkey, hstarted])
    exact hne (hs.owner r r' n hholds hholds')
  · intro r r' n n' a a' hkey hr hr' hlooked
    rw [CacheKey.same_iff] at hkey
    have hvalue := hs.returns r n a (by rw [hr]; rfl)
    have hvalue' := hs.returns r' n' a' (by rw [hr']; rfl)
    have horigin := (hs.slot r n (by rw [hr]; rfl)).2.1
    have horigin' := (hs.slot r' n' (by rw [hr']; rfl)).2.1
    have hfilled {m : Nat} {b : Artifact}
        (hb : (s.cache.content? m).map (·.artifact) = some b) : s.Alive m := by
      refine Or.inl fun hc => ?_
      rw [hc] at hb
      exact nomatch hb
    obtain rfl := hs.unique n n' (hfilled hvalue) (hfilled hvalue')
      (by rw [horigin, horigin', hkey, hlooked])
    exact ⟨rfl, Option.some.inj (hvalue.symm.trans hvalue')⟩
  · intro r n a hr
    have hvalue := hs.returns r n a (by rw [hr]; rfl)
    obtain ⟨-, horigin, hbegun⟩ := hs.slot r n (by rw [hr]; rfl)
    have hfilled := hs.filled n fun hc => by rw [hc] at hvalue; exact nomatch hvalue
    rw [hfilled, horigin]
    exact hbegun

/-- A request that lowers a function, and one that waits for it and is served. -/
theorem single_flight_waiting : ∃ (key : Nat → CacheKey) (s : System), Reachable key s ∧
    (s.flight 0).phase = .done 0 (.ok default) ∧ (s.flight 1).phase = .done 0 (.ok default) ∧
    (s.flight 1).begun ≤ s.filled 0 := by
  let key : Nat → CacheKey := fun _ => default
  have h₀ : Reachable key .start := .refl
  have h₁ := (h₀.tail (.begin _ 0 rfl)).tail (.begin _ 1 rfl)
  have h₂ := (h₁.tail (.miss _ 0 rfl rfl)).tail (.create _ 0 0 _ rfl rfl)
  have h₃ := (h₂.tail (.find _ 1 0 rfl rfl)).tail (.lock _ 0 0 rfl rfl)
  have h₄ := (h₃.tail (.empty _ 0 0 rfl rfl)).tail (.current _ 0 0 rfl rfl)
  have h₅ := (h₄.tail (.succeed _ 0 0 default rfl)).tail (.fill _ 0 0 default rfl)
  have h₆ := (h₅.tail (.unlock _ 0 0 _ rfl)).tail (.lock _ 1 0 rfl rfl)
  have h₇ := (h₆.tail (.hit _ 1 0 _ rfl rfl)).tail (.unlock _ 1 0 _ rfl)
  exact ⟨key, _, h₇, rfl, rfl, (Reachable.single_flight h₇).2.2 1 0 default rfl⟩

end TensorLowering
