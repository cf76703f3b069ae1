import TensorLowering.Proofs.Cache.Refinement
import TensorLowering.Proofs.Cache.Steps

/-!
# Two caches with all that goes on in them

An engine has one cache for values and one for shapes, and a request for an entry point goes on
after it has obtained its artifact: it locks the entry point of the slot, tests whether it is there,
and otherwise builds it and keeps it. `Traffic` is both caches with all requests on them, which go
on in atomic steps (`Traffic.Step`) in any order; clearings are steps too, one for each cache.
Requests that are issued while a function is lowered are requests like others. Without others in
between, the steps of one request for an entry point do what `Engine.obtainEntryPoint` does
(`Traffic.leads_obtainEntryPoint`).

A run (`Traffic.Run`) remembers everything that was reached. Each of its steps leaves the requests
of a cache and the tally of its entries as they were, lets one request go on that obtains nothing,
or lets one obtain the value of a slot (`System.Effect`). So what was put into a slot stays there
(`Traffic.Run.keeps`).
-/

namespace TensorLowering

/-! ### What a step changes -/

namespace Phase

/-- The slot a request has begun to lower a function for, also when this is over. -/
def tended? : Phase → Option Nat
  | .lowering n | .filling n _ | .failing n _ | .leaving n _ | .done n _ => some n
  | .idle | .looking | .missed | .waiting _ | .testing _ | .checking _ | .retrying _ => none

/-- The slot whose value a request has obtained. -/
def obtained? (p : Phase) : Option Nat := p.returns?.map (·.1)

/-- Whoever lowers for a slot tends it. -/
theorem tended?_of_lowers? {p : Phase} {n : Nat} (h : p.lowers? = some n) :
    p.tended? = some n := by
  cases p <;> first | exact h | exact nomatch h

/-- Whoever still lowers has obtained nothing. -/
theorem obtained?_of_lowers? {p : Phase} {n : Nat} (h : p.lowers? = some n) :
    p.obtained? = none := by
  cases p <;> first | rfl | exact nomatch h

end Phase

/-- The artifact of a slot and how often it was used. -/
def Cache.tally (c : Cache) (n : Nat) : Option (Artifact × Nat) :=
  (c.content? n).map fun e => (e.artifact, e.uses)

/-- **What a step does to the requests and to the entries.** -/
inductive System.Effect (s s' : System) : Prop where
  /-- At most one request goes on, and obtains nothing. -/
  | move (r : Nat) (x : Flight) : s'.flight = Function.update s.flight r x →
      x.phase.obtained? = (s.flight r).phase.obtained? →
      (∀ n, (s.flight r).phase.tended? = some n → x.phase.tended? = some n) →
      s'.cache.tally = s.cache.tally → Effect s s'
  /-- A request is served from a slot that is filled. -/
  | serve (r n : Nat) (a : Artifact) (uses : Nat) : (s.flight r).phase = .testing n →
      s.cache.tally n = some (a, uses) →
      s'.flight = Function.update s.flight r { s.flight r with phase := .leaving n (.ok a) } →
      s'.cache.tally = Function.update s.cache.tally n (some (a, uses + 1)) → Effect s s'
  /-- A request fills the slot that it has lowered a function for. -/
  | fill (r n : Nat) (a : Artifact) : (s.flight r).phase = .filling n a →
      s.cache.tally n = none →
      s'.flight = Function.update s.flight r { s.flight r with phase := .leaving n (.ok a) } →
      s'.cache.tally = Function.update s.cache.tally n (some (a, 0)) → Effect s s'

namespace Cache

variable {c c' : Cache} {n : Nat}

private theorem tally_eq (h : ∀ n, c'.content? n = c.content? n) : c'.tally = c.tally := by
  funext n
  rw [tally, tally, h]

/-- Changing an entry, but neither its artifact nor its uses. -/
private theorem tally_modifyEntry (c : Cache) (n : Nat) {f : Entry → Entry}
    (hf : ∀ e, (f e).artifact = e.artifact ∧ (f e).uses = e.uses) :
    (c.modifyEntry n f).tally = c.tally := by
  funext m
  rw [tally, content?_modifyEntry]
  split
  · rw [Option.map_map]
    exact congrArg (fun g => (c.content? m).map g) (funext fun e => Prod.ext (hf e).1 (hf e).2)
  · rfl

private theorem tally_countUse {e : Entry} (h : c.content? n = some e) :
    (c.countUse n).tally = Function.update c.tally n (some (e.artifact, e.uses + 1)) := by
  funext m
  rw [tally, countUse, content?_modifyEntry, Function.update_apply]
  by_cases hm : n = m
  · subst hm
    rw [if_pos rfl, if_pos rfl, h]
    rfl
  · rw [if_neg hm, if_neg (Ne.symm hm)]
    rfl

private theorem tally_fill (hn : n < c.slots.size) (a : Artifact) :
    (c.fill n a).tally = Function.update c.tally n (some (a, 0)) := by
  funext m
  rw [tally, content?_fill hn, Function.update_apply]
  by_cases hm : n = m
  · subst hm
    rw [if_pos rfl, if_pos rfl]
    rfl
  · rw [if_neg hm, if_neg (Ne.symm hm)]
    rfl

end Cache

namespace System

variable {key : Nat → CacheKey} {s s' : System}

/-- A request goes on from one phase to another, and obtains nothing. -/
private theorem Effect.goes {r : Nat} {p : Phase} {x : Flight} (hr : (s.flight r).phase = p)
    (hflight : s'.flight = Function.update s.flight r x)
    (hobtained : x.phase.obtained? = p.obtained?)
    (htended : ∀ n, p.tended? = some n → x.phase.tended? = some n)
    (hcontent : ∀ n, s'.cache.content? n = s.cache.content? n) : Effect s s' := by
  subst hr
  exact .move r x hflight hobtained htended (Cache.tally_eq hcontent)

/-- Nothing is done but to the entry points. -/
theorem Effect.still (hflight : s'.flight = s.flight) (htally : s'.cache.tally = s.cache.tally) :
    Effect s s' :=
  .move 0 (s.flight 0) (hflight.trans (Function.update_eq_self _ _).symm) rfl (fun _ h => h) htally

theorem Effect.refl (s : System) : Effect s s := .still rfl rfl

/-- **Every step has one of these effects.** -/
theorem Step.effect (h : System.Step key s s') (hs : Sound key s) : Effect s s' := by
  cases h with
  | begin r hr => exact .goes hr rfl rfl (fun _ h => nomatch h) fun _ => rfl
  | clear => exact .still rfl rfl
  | find r n hr => exact .goes hr rfl rfl (fun _ h => nomatch h) fun _ => rfl
  | miss r hr => exact .goes hr rfl rfl (fun _ h => nomatch h) fun _ => rfl
  | create r n c hr hslot =>
    refine .goes hr rfl rfl (fun _ h => nomatch h) fun m => ?_
    have hcontent := Cache.content?_slotFor s.cache (key r) m
    rwa [hslot] at hcontent
  | lock r n hr =>
    exact .goes hr rfl rfl (fun _ h => nomatch h) fun _ => Cache.content?_setBusy _ _ _ _
  | hit r n e hr he =>
    refine .serve r n e.artifact e.uses hr ?_ rfl (Cache.tally_countUse he)
    rw [Cache.tally, he]
    rfl
  | empty r n hr => exact .goes hr rfl rfl (fun _ h => nomatch h) fun _ => rfl
  | current r n hr => exact .goes hr rfl rfl (fun _ h => nomatch h) fun _ => rfl
  | detached r n hr => exact .goes hr rfl rfl (fun _ h => nomatch h) fun _ => rfl
  | retry r n hr =>
    exact .goes hr rfl rfl (fun _ h => nomatch h) fun _ => Cache.content?_setBusy _ _ _ _
  | succeed r n a hr => exact .goes hr rfl rfl (fun _ h => h) fun _ => rfl
  | fail r n e hr => exact .goes hr rfl rfl (fun _ h => h) fun _ => rfl
  | panic r n hr => exact .goes hr rfl rfl (fun _ h => h) fun _ => rfl
  | fill r n a hr =>
    refine .fill r n a hr ?_ rfl (Cache.tally_fill (hs.slot r n (by rw [hr]; rfl)).1 a)
    rw [Cache.tally, hs.blank r n (by rw [hr]; rfl)]
    rfl
  | remove r n e hr =>
    exact .goes hr rfl rfl (fun _ h => h) fun _ => Cache.content?_detach _ _ _ _
  | unlock r n o hr =>
    refine .goes hr rfl ?_ (fun _ h => h) fun _ => Cache.content?_setBusy _ _ _ _
    cases o <;> rfl

/-- What was lowered into a slot stays there. -/
theorem Effect.keeps (h : s.Effect s') {n uses : Nat} {a : Artifact}
    (hn : s.cache.tally n = some (a, uses)) : ∃ uses', s'.cache.tally n = some (a, uses') := by
  cases h with
  | move r x _ _ _ htally => exact ⟨uses, htally ▸ hn⟩
  | serve r m b u _ hm _ htally =>
    rw [htally, Function.update_apply]
    split
    · next heq =>
      rw [heq, hm] at hn
      obtain ⟨rfl, rfl⟩ := Prod.mk.inj (Option.some.inj hn)
      exact ⟨_, rfl⟩
    · exact ⟨uses, hn⟩
  | fill r m b _ hm _ htally =>
    rw [htally, Function.update_apply]
    split
    · next heq => rw [heq, hm] at hn; cases hn
    · exact ⟨uses, hn⟩

end System

/-! ### Two caches and their entry points -/

/-- Where a request for an entry point stands that has obtained the artifact. -/
inductive Making where
  /-- It has not begun. -/
  | idle
  /-- It is about to test whether the entry point is there. -/
  | testing (slot : Nat)
  /-- It builds the entry point. -/
  | building (slot : Nat)
  /-- The entry point was built, and it is about to keep it. -/
  | keeping (slot : Nat) (p : EntryPoint)
  /-- It is about to leave the entry point and to return. -/
  | leaving (slot : Nat) (o : Outcome EntryPoint)
  /-- It has returned. -/
  | done (o : Outcome EntryPoint)

/-- The slot whose entry point a request works on. -/
def Making.holds? : Making → Option Nat
  | .testing n | .building n | .keeping n _ | .leaving n _ => some n
  | .idle | .done _ => none

/-- Both caches with the requests on them; requests for values may go on to entry points. -/
structure Traffic where
  side : Aspect → System
  making : Nat → Making

namespace Traffic

/-- Nothing was requested. -/
def start : Traffic := ⟨fun _ => .start, fun _ => .idle⟩

/-- Let a request go on with its entry point. -/
def goto (t : Traffic) (r : Nat) (p : Making) : Traffic :=
  { t with making := Function.update t.making r p }

/-- Let something happen in one of the caches. -/
def withSide (t : Traffic) (aspect : Aspect) (s : System) : Traffic :=
  { t with side := Function.update t.side aspect s }

/-- **One atomic step**, of a request on one of the caches, of a clearing of one of them, or of a
request for an entry point. Requests are numbered for each cache. -/
inductive Step (key : Aspect → Nat → CacheKey) (jits : Nat → Bool) : Traffic → Traffic → Prop where
  | side (t : Traffic) (aspect : Aspect) (s : System) :
      System.Step (key aspect) (t.side aspect) s → Step key jits t (t.withSide aspect s)
  | lock (t : Traffic) (r n : Nat) (a : Artifact) : jits r = true →
      ((t.side .values).flight r).phase = .done n (.ok a) → t.making r = .idle →
      (∀ r', (t.making r').holds? ≠ some n) → Step key jits t (t.goto r (.testing n))
  | reuse (t : Traffic) (r n : Nat) (e : Entry) (p : EntryPoint) : t.making r = .testing n →
      (t.side .values).cache.content? n = some e → e.entryPoint = some p →
      Step key jits t (t.goto r (.leaving n (.ok p)))
  | build (t : Traffic) (r n : Nat) (e : Entry) : t.making r = .testing n →
      (t.side .values).cache.content? n = some e → e.entryPoint = none →
      Step key jits t (t.goto r (.building n))
  | succeed (t : Traffic) (r n : Nat) (p : EntryPoint) : t.making r = .building n →
      Step key jits t (t.goto r (.keeping n p))
  | fail (t : Traffic) (r n : Nat) (e : Fault) : t.making r = .building n →
      Step key jits t (t.goto r (.leaving n (.fault e)))
  | panic (t : Traffic) (r n : Nat) : t.making r = .building n →
      Step key jits t (t.goto r (.leaving n .panic))
  | keep (t : Traffic) (r n : Nat) (p : EntryPoint) : t.making r = .keeping n p →
      Step key jits t ((t.goto r (.leaving n (.ok p))).withSide .values
        ((t.side .values).withCache ((t.side .values).cache.storeEntryPoint n p)))
  | unlock (t : Traffic) (r n : Nat) (o : Outcome EntryPoint) : t.making r = .leaving n o →
      Step key jits t (t.goto r (.done o))

/-- **A run**: what was reached in some order of steps, and all that was reached before, last
first. -/
inductive Run (key : Aspect → Nat → CacheKey) (jits : Nat → Bool) : Traffic → List Traffic → Prop
  where
  | start : Run key jits start []
  | step {t t' : Traffic} {past : List Traffic} : Run key jits t past → Step key jits t t' →
      Run key jits t' (t :: past)

variable {key : Aspect → Nat → CacheKey} {jits : Nat → Bool} {t t' u : Traffic}
  {past : List Traffic}

/-- What a step does to either of the caches. -/
theorem Step.side_sound (h : Step key jits t t') (ht : ∀ aspect, Sound (key aspect) (t.side aspect))
    (aspect : Aspect) :
    Sound (key aspect) (t'.side aspect) ∧ (t.side aspect).Effect (t'.side aspect) := by
  have hsame : Sound (key aspect) (t.side aspect) ∧ (t.side aspect).Effect (t.side aspect) :=
    ⟨ht aspect, .refl _⟩
  cases h with
  | side b s hstep =>
    by_cases hb : aspect = b
    · subst hb
      have hside : (t.withSide aspect s).side aspect = s := Function.update_self _ _ _
      rw [hside]
      exact ⟨(ht aspect).step hstep, hstep.effect (ht aspect)⟩
    · have hside : (t.withSide b s).side aspect = t.side aspect := Function.update_of_ne hb _ _
      rw [hside]
      exact hsame
  | keep r n p =>
    cases aspect with
    | values =>
      refine ⟨(ht .values).modifyEntry n fun _ => rfl, ?_⟩
      exact .still rfl (Cache.tally_modifyEntry _ n fun _ => ⟨rfl, rfl⟩)
    | shapes => exact hsame
  | lock | reuse | build | succeed | fail | panic | unlock => exact hsame

/-- Both caches are sound at any moment of a run. -/
theorem Run.sound (h : Run key jits t past) : ∀ aspect, Sound (key aspect) (t.side aspect) := by
  induction h with
  | start => exact fun aspect => Sound.start (key aspect)
  | step _ hstep ih => exact fun aspect => (hstep.side_sound ih aspect).1

/-- What was lowered into a slot stays there. -/
theorem Run.keeps (h : Run key jits t past) (hu : u ∈ t :: past) {aspect : Aspect} {n uses : Nat}
    {a : Artifact} (hn : (u.side aspect).cache.tally n = some (a, uses)) :
    ∃ uses', (t.side aspect).cache.tally n = some (a, uses') := by
  -- on the run: what is there now is trivial, and what was there before is kept by the last step
  induction h with
  | start =>
    obtain rfl := List.mem_singleton.mp hu
    exact ⟨uses, hn⟩
  | step hrun hstep ih =>
    obtain rfl | hu := List.mem_cons.mp hu
    · exact ⟨uses, hn⟩
    · obtain ⟨uses', hn'⟩ := ih hu
      exact (hstep.side_sound hrun.sound aspect).2.keeps hn'

/-! ### An entry point without others in between -/

/-- Any number of steps, one after the other. -/
abbrev Path (key : Aspect → Nat → CacheKey) (jits : Nat → Bool) (t t' : Traffic) : Prop :=
  Relation.ReflTransGen (Step key jits) t t'

private theorem making_goto (t : Traffic) (r : Nat) (p : Making) : (t.goto r p).making r = p :=
  Function.update_self _ _ _

/-- A request that holds an entry point and is about to leave it. -/
private theorem Path.unlock {r n : Nat} {o : Outcome EntryPoint} (h : Path key jits t t')
    (hr : t'.making r = .leaving n o) :
    ∃ u, Path key jits t u ∧ u.making r = .done o ∧ u.side = t'.side :=
  ⟨_, h.tail (.unlock t' r n o hr), making_goto _ _ _, rfl⟩

/-- A cache after a builder has ended. -/
def keptBy (c : Cache) (n : Nat) : Outcome EntryPoint → Cache
  | .ok p => c.storeEntryPoint n p
  | .fault _ | .panic | .stalled => c

/-- A builder that ends, from the moment it was called. -/
private theorem Path.build {r n : Nat} {o : Outcome EntryPoint} (h : Path key jits t t')
    (hr : t'.making r = .building n) (ho : o ≠ .stalled) :
    ∃ u, Path key jits t u ∧ u.making r = .done o ∧
      (u.side .values).cache = keptBy (t'.side .values).cache n o := by
  cases o with
  | ok p =>
    have hkeeping := h.tail (.succeed t' r n p hr)
    have hkept := hkeeping.tail (.keep _ r n p (making_goto _ _ _))
    obtain ⟨u, hpath, hu, hside⟩ := Path.unlock hkept (making_goto _ _ _)
    exact ⟨u, hpath, hu, by rw [hside]; rfl⟩
  | fault e =>
    obtain ⟨u, hpath, hu, hside⟩ := Path.unlock (h.tail (.fail t' r n e hr)) (making_goto _ _ _)
    exact ⟨u, hpath, hu, by rw [hside]; rfl⟩
  | panic =>
    obtain ⟨u, hpath, hu, hside⟩ := Path.unlock (h.tail (.panic t' r n hr)) (making_goto _ _ _)
    exact ⟨u, hpath, hu, by rw [hside]; rfl⟩
  | stalled => exact absurd rfl ho

/-- **An entry point in one go.** Where nobody works on the entry point of a slot, and the builder
neither stalls nor changes the caches, the steps of a request that has obtained the slot lead to the
outcome of `Engine.obtainEntryPoint` and to the cache that it leaves. -/
theorem leads_obtainEntryPoint {σ : Type} {g : Engine σ} {m : Machine σ} {r n : Nat} {e : Entry}
    (hjits : jits r = true)
    (hphase : ((t.side .values).flight r).phase = .done n (.ok e.artifact))
    (hidle : t.making r = .idle) (hfree : ∀ r', (t.making r').holds? ≠ some n)
    (hcache : (t.side .values).cache = m.values) (he : m.values.content? n = some e)
    (hstalls : (g.collaborators.build e.artifact m).1 ≠ .stalled)
    (hvalues : (g.collaborators.build e.artifact m).2.values = m.values) :
    ∃ u, Path key jits t u ∧ u.making r = .done (g.obtainEntryPoint n m).1 ∧
      (u.side .values).cache = (g.obtainEntryPoint n m).2.values := by
  have hlocked : Path key jits t (t.goto r (.testing n)) :=
    .single (.lock t r n e.artifact hjits hphase hidle hfree)
  have htests : (t.goto r (.testing n)).making r = .testing n := making_goto _ _ _
  have hcontent : ((t.goto r (.testing n)).side .values).cache.content? n = some e := by
    change (t.side .values).cache.content? n = some e
    rw [hcache, he]
  have hentry : entryOf .values n m = (.ok e, m) := Refines.entryOf_eq he
  cases hp : e.entryPoint with
  | some p =>
    have hrun : g.obtainEntryPoint n m = (.ok p, m) := by
      refine Action.bind_eq_ok_iff.mpr ⟨e, m, hentry, ?_⟩
      rw [hp]
      rfl
    obtain ⟨u, hpath, hu, hside⟩ := Path.unlock
      (hlocked.tail (.reuse _ r n e p htests hcontent hp)) (making_goto _ _ _)
    rw [hrun]
    exact ⟨u, hpath, hu, by rw [hside]; exact hcache⟩
  | none =>
    have hrun : g.obtainEntryPoint n m = Action.bind (g.collaborators.build e.artifact) (fun p => do
        Action.modify fun m => m.modifyCache .values fun c => c.storeEntryPoint n p
        return p) m := by
      change Action.bind _ _ m = _
      unfold Action.bind
      rw [hentry]
      dsimp only
      rw [hp]
      rfl
    rw [hrun]
    unfold Action.bind
    rcases hbuild : g.collaborators.build e.artifact m with ⟨o, m'⟩
    rw [hbuild] at hstalls hvalues
    have hsame : (t.side .values).cache = m'.values := hcache.trans hvalues.symm
    obtain ⟨u, hpath, hu, hkept⟩ := Path.build
      (hlocked.tail (.build _ r n e htests hcontent hp)) (making_goto _ _ _) hstalls
    refine ⟨u, hpath, ?_⟩
    rw [hu, hkept]
    cases o with
    | ok p => exact ⟨rfl, congrArg (fun c => c.storeEntryPoint n p) hsame⟩
    | fault | panic => exact ⟨rfl, hsame⟩
    | stalled => exact absurd rfl hstalls

end Traffic

end TensorLowering
