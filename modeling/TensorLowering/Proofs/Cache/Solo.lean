import TensorLowering.Proofs.Cache.Refinement
import TensorLowering.Proofs.Cache.Steps

/-!
# A request without others in between

`obtain` serves a request in one go, and `System.Step` takes a request apart into atomic steps. Here
the two are shown to be one thing: what `obtain` does to a cache, and the outcome it has, is where
the steps of one request lead when no other makes a step in between (`leads_obtain`). So the
properties of all orders of steps are properties of this order too.

A request that would wait for itself has no such path, which is why nobody may work on a slot and
the lowering may not stall. Between two requests on an engine with calm collaborators this is so
(`Refines.leads_obtain`).
-/

namespace TensorLowering

/-- The steps of the request `r` lead from one phase to another and from one cache to another, and
nothing else is changed on the way. -/
def Leads (key : Nat → CacheKey) (r : Nat) (p : Phase) (c : Cache) (p' : Phase) (c' : Cache) :
    Prop :=
  ∀ s : System, (s.flight r).phase = p → s.cache = c →
    ∃ s', Relation.ReflTransGen (System.Step key) s s' ∧ (s'.flight r).phase = p' ∧
      s'.cache = c' ∧ s'.clears = s.clears ∧ ∀ r', r' ≠ r → s'.flight r' = s.flight r'

namespace Leads

variable {key : Nat → CacheKey} {r n : Nat} {p p' p'' : Phase} {c c' c'' : Cache}

theorem trans (h : Leads key r p c p' c') (h' : Leads key r p' c' p'' c'') :
    Leads key r p c p'' c'' := by
  intro s hp hc
  obtain ⟨s', hpath, hp', hc', hclears, hother⟩ := h s hp hc
  obtain ⟨s'', hpath', hp'', hc'', hclears', hother'⟩ := h' s' hp' hc'
  refine ⟨s'', hpath.trans hpath', hp'', hc'', hclears'.trans hclears, fun r' hr => ?_⟩
  exact (hother' r' hr).trans (hother r' hr)

/-- One step that changes one request. -/
theorem single (h : ∀ s : System, (s.flight r).phase = p → s.cache = c → ∃ s' x,
    System.Step key s s' ∧ s'.flight = Function.update s.flight r x ∧ x.phase = p' ∧
      s'.cache = c' ∧ s'.clears = s.clears) : Leads key r p c p' c' := by
  intro s hp hc
  obtain ⟨s', x, hstep, hflight, hp', hc', hclears⟩ := h s hp hc
  refine ⟨s', .single hstep, ?_, hc', hclears, fun r' hr => ?_⟩
  · rw [hflight, Function.update_self]
    exact hp'
  · rw [hflight, Function.update_of_ne hr]

private theorem begin : Leads key r .idle c .looking c :=
  single fun s hp hc => ⟨_, _, .begin s r hp, rfl, rfl, hc, rfl⟩

/-- Looking up the slot of the key, or making it. -/
private theorem look (h : c.slotFor (key r) = (n, c')) :
    Leads key r .looking c (.waiting n) c' := by
  cases hslot : c.slot? (key r) with
  | some m =>
    have heq := Cache.slotFor_of_some ((Cache.slot?_eq c (key r)).symm.trans hslot)
    obtain ⟨rfl, rfl⟩ := Prod.mk.inj (heq.symm.trans h)
    refine single fun s hp hc => ?_
    subst hc
    exact ⟨_, _, .find s r m hp hslot, rfl, rfl, rfl, rfl⟩
  | none =>
    have hmiss : Leads key r .looking c .missed c := by
      refine single fun s hp hc => ?_
      subst hc
      exact ⟨_, _, .miss s r hp hslot, rfl, rfl, rfl, rfl⟩
    refine hmiss.trans (single fun s hp hc => ?_)
    subst hc
    exact ⟨_, _, .create s r n c' hp h, rfl, rfl, rfl, rfl⟩

private theorem lock (h : c.isBusy n = false) :
    Leads key r (.waiting n) c (.testing n) (c.setBusy n true) := by
  refine single fun s hp hc => ?_
  subst hc
  exact ⟨_, _, .lock s r n hp h, rfl, rfl, rfl, rfl⟩

private theorem unlock {o : Outcome Artifact} :
    Leads key r (.leaving n o) c (.done n o) (c.setBusy n false) := by
  refine single fun s hp hc => ?_
  subst hc
  exact ⟨_, _, .unlock s r n o hp, rfl, rfl, rfl, rfl⟩

/-- Being served from a slot that is filled. -/
private theorem hit {e : Entry} (h : c.content? n = some e) :
    Leads key r (.testing n) c (.leaving n (.ok e.artifact)) (c.countUse n) := by
  refine single fun s hp hc => ?_
  subst hc
  exact ⟨_, _, .hit s r n e hp h, rfl, rfl, rfl, rfl⟩

/-- Starting to lower for a slot that is empty and the one of the key. -/
private theorem miss (h : c.content? n = none) (hserves : c.serves (key r) n = true) :
    Leads key r (.testing n) c (.lowering n) c := by
  have hempty : Leads key r (.testing n) c (.checking n) c := by
    refine single fun s hp hc => ?_
    subst hc
    exact ⟨_, _, .empty s r n hp h, rfl, rfl, rfl, rfl⟩
  refine hempty.trans (single fun s hp hc => ?_)
  subst hc
  exact ⟨_, _, .current s r n hp hserves, rfl, rfl, rfl, rfl⟩

/-- Filling the slot that a function was lowered for. -/
private theorem succeed (a : Artifact) :
    Leads key r (.lowering n) c (.leaving n (.ok a)) (c.fill n a) := by
  have hend : Leads key r (.lowering n) c (.filling n a) c :=
    single fun s hp hc => ⟨_, _, .succeed s r n a hp, rfl, rfl, hc, rfl⟩
  refine hend.trans (single fun s hp hc => ?_)
  subst hc
  exact ⟨_, _, .fill s r n a hp, rfl, rfl, rfl, rfl⟩

/-- Taking away the slot after a fault. -/
private theorem fail (e : Fault) :
    Leads key r (.lowering n) c (.leaving n (.fault e)) (c.detach (key r) n) := by
  have hend : Leads key r (.lowering n) c (.failing n e) c :=
    single fun s hp hc => ⟨_, _, .fail s r n e hp, rfl, rfl, hc, rfl⟩
  refine hend.trans (single fun s hp hc => ?_)
  subst hc
  exact ⟨_, _, .remove s r n e hp, rfl, rfl, rfl, rfl⟩

/-- Leaving the slot empty after a panic. -/
private theorem panic : Leads key r (.lowering n) c (.leaving n .panic) c :=
  single fun s hp hc => ⟨_, _, .panic s r n hp, rfl, rfl, hc, rfl⟩

end Leads

/-- Counting a request while working on a slot that is free before and after. -/
private theorem Cache.countUse_locked {c : Cache} {n : Nat} (h : c.isBusy n = false) :
    ((c.setBusy n true).countUse n).setBusy n false = c.countUse n := by
  unfold setBusy countUse modifyEntry
  congr 1
  refine Array.ext_getElem? fun m => ?_
  rw [Array.getElem?_modify, Array.getElem?_modify, Array.getElem?_modify, Array.getElem?_modify]
  split
  · next hnm =>
    subst hnm
    unfold isBusy at h
    cases hslot : c.slots[n]? with
    | none => rfl
    | some slot =>
      rw [hslot] at h
      obtain ⟨busy, entry⟩ := slot
      obtain rfl : busy = false := h
      rfl
  · rfl

variable {σ : Type} {key : Nat → CacheKey} {r : Nat} {aspect : Aspect}

/-- **A request in one go.** Where nobody works on a slot, and the lowering neither stalls nor
changes the cache, the steps of a request lead to the outcome of `obtain` and to the cache that it
leaves. -/
theorem leads_obtain {m : Machine σ} {lower : Action σ Artifact}
    (hidle : ∀ n, (m.cache aspect).isBusy n = false)
    (hlower : ∀ c, (lower (m.modifyCache aspect fun _ => c)).1 ≠ .stalled ∧
      (lower (m.modifyCache aspect fun _ => c)).2.cache aspect = c) :
    ∃ n o, (obtain aspect (key r) lower m).1 = o.map (fun _ => n) ∧
      Leads key r .idle (m.cache aspect) (.done n o)
        ((obtain aspect (key r) lower m).2.cache aspect) := by
  rcases hslot : (m.cache aspect).slotFor (key r) with ⟨n, c⟩
  have hbusy := Cache.isBusy_slotFor (m.cache aspect) (key r) n
  have hlabel := Cache.slotOf?_slotFor (m.cache aspect) (key r) (key r).label
  rw [hslot] at hbusy hlabel
  rw [if_pos rfl] at hlabel
  have hfree : c.isBusy n = false := hbusy.trans (hidle n)
  have hlocked : Leads key r .idle (m.cache aspect) (.testing n) (c.setBusy n true) :=
    (Leads.begin.trans (Leads.look hslot)).trans (Leads.lock hfree)
  have hcontent := Cache.content?_setBusy c n n true
  cases hentry : c.content? n with
  | some e =>
    refine ⟨n, .ok e.artifact, ?_, ?_⟩
    · rw [obtain_hit hslot hfree hentry]
      rfl
    · rw [obtain_hit hslot hfree hentry, Machine.cache_modifyCache, if_pos rfl,
        ← Cache.countUse_locked hfree]
      exact (hlocked.trans (Leads.hit (hcontent.trans hentry))).trans Leads.unlock
  | none =>
    have hserves : (c.setBusy n true).serves (key r) n = true := Cache.serves_iff.mpr hlabel
    have hstarted := hlocked.trans (Leads.miss (hcontent.trans hentry) hserves)
    obtain ⟨hruns, hkept⟩ := hlower (c.setBusy n true)
    rw [obtain_miss hslot hfree hentry]
    rcases hrun : lower (m.modifyCache aspect fun _ => c.setBusy n true) with ⟨o, m'⟩
    rw [hrun] at hruns hkept
    dsimp only at hruns hkept
    cases o with
    | ok a =>
      refine ⟨n, .ok a, rfl, ?_⟩
      rw [Machine.cache_modifyCache, if_pos rfl, hkept]
      exact (hstarted.trans (Leads.succeed a)).trans Leads.unlock
    | fault e =>
      refine ⟨n, .fault e, rfl, ?_⟩
      rw [Machine.cache_modifyCache, if_pos rfl, hkept]
      exact (hstarted.trans (Leads.fail e)).trans Leads.unlock
    | panic =>
      refine ⟨n, .panic, rfl, ?_⟩
      rw [Machine.cache_modifyCache, if_pos rfl, hkept]
      exact (hstarted.trans Leads.panic).trans Leads.unlock
    | stalled => exact absurd rfl hruns

/-- Between the requests on an engine with calm collaborators. -/
theorem Refines.leads_obtain {g : Engine σ} (hg : g.collaborators.Quiet) {m : Machine σ}
    {s : Memo σ} (h : Refines m s) :
    ∃ n o, (g.obtainArtifact aspect (key r) m).1 = o.map (fun _ => n) ∧
      Leads key r .idle (m.cache aspect) (.done n o)
        ((g.obtainArtifact aspect (key r) m).2.cache aspect) := by
  have hshows := h.cache aspect
  refine TensorLowering.leads_obtain hshows.idle fun c => ?_
  have hlowers := Memo.lowers hg aspect (key r) (s := s) (by rw [h.world]; rfl)
  rw [Engine.lowerArtifact_eq hg aspect (key r) (s := s)
    (h.world.trans (m.world_modifyCache aspect _).symm)
    (h.names.trans (m.names_modifyCache aspect _).symm)]
  refine ⟨hlowers.runs, ?_⟩
  cases aspect <;> rfl

end TensorLowering
