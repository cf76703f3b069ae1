import TensorLowering.Proofs.Cache.Moment
import TensorLowering.Proofs.Cache.Requests

/-!
# Requests inside requests

In an engine whose collaborators issue requests (`Engine.nested`), a lowering may begin while others
are in progress, and the caches may be cleared meanwhile.

An action *follows* the moments (`Action.Follows`) if from every moment it leads to another one
along a path, and leaves no lowering behind unless it waits for itself. Whatever a request does with
the engine keeps this (`Action.service_follows`). So all that happens in a nested engine happens
along a path of moments, and what holds at every moment holds throughout the run
(`Engine.nested_faithful`).
-/

namespace TensorLowering

variable {σ α β : Type}

/-! ### Actions that follow moments -/

/-- An action that leads from moment to moment; its results have a property. -/
structure Action.Follows (P : α → Prop) (x : Action σ α) : Prop where
  path : ∀ M : Moment σ, M.Sound → ∃ N, M.Path N ∧ N.machine = (x M.machine).2 ∧
    ((x M.machine).1 ≠ .stalled → N.frames = M.frames)
  result : ∀ m a, (x m).1 = .ok a → P a

namespace Action

variable {P : α → Prop} {Q : β → Prop} {x : Action σ α}

private theorem Quiet.follows (h : Quiet P x) : Follows P x := by
  refine ⟨fun M _ => ?_, h.result⟩
  have hsame := congrArg Prod.snd (h.tables M.machine M.machine.values M.machine.shapes
    M.machine.names)
  have hcaches (aspect : Aspect) : (x M.machine).2.cache aspect = M.machine.cache aspect := by
    change (x M.machine).2 = _ at hsame
    rw [hsame]
    cases aspect <;> rfl
  exact ⟨_, .single (.calm _ hcaches), rfl, fun _ => rfl⟩

private theorem follows_pure {a : α} (h : P a) : Follows P (pure a : Action σ α) :=
  (quiet_pure h).follows

/-- Two things in a row. -/
theorem Follows.bind {f : α → Action σ β} (hx : Follows P x) (hf : ∀ a, P a → Follows Q (f a)) :
    Follows Q (x >>= f) := by
  have hrun (m : Machine σ) : (x >>= f) m = Action.bind x f m := rfl
  refine ⟨fun M hM => ?_, fun m b hb => ?_⟩
  · obtain ⟨N, hpath, hN, hframes⟩ := hx.path M hM
    have hresult := hx.result M.machine
    rw [hrun]
    unfold Action.bind
    rcases hxm : x M.machine with ⟨o, m⟩
    rw [hxm] at hN hframes hresult
    obtain rfl : N.machine = m := hN
    cases o with
    | ok a =>
      obtain ⟨N', hpath', hN', hframes'⟩ := (hf a (hresult a rfl)).path N (hM.path hpath)
      refine ⟨N', hpath.trans hpath', hN', fun h => ?_⟩
      rw [hframes' h, hframes fun h => nomatch h]
    | fault | panic => exact ⟨N, hpath, rfl, fun _ => hframes fun h => nomatch h⟩
    -- what waits for itself may have left lowerings behind
    | stalled => exact ⟨N, hpath, rfl, fun h => absurd rfl h⟩
  · rw [hrun] at hb
    unfold Action.bind at hb
    rcases hxm : x m with ⟨o, m'⟩
    rw [hxm] at hb
    cases o with
    | ok a => exact (hf a (hx.result m a (by rw [hxm]))).result m' b hb
    | fault | panic | stalled => exact nomatch hb

/-- Something between two changes that do not touch the caches. -/
private theorem Follows.between (h : Follows P x) {f g : Machine σ → Machine σ}
    (hf : ∀ m aspect, (f m).cache aspect = m.cache aspect)
    (hg : ∀ m aspect, (g m).cache aspect = m.cache aspect) :
    Follows P fun m => ((x (f m)).1, g (x (f m)).2) := by
  refine ⟨fun M hM => ?_, fun m => h.result (f m)⟩
  have hfirst : M.Step { M with machine := f M.machine } := .calm _ (hf M.machine)
  obtain ⟨N, hpath, hN, hframes⟩ := h.path _ (hM.step hfirst)
  have hlast : N.Step { N with machine := g N.machine } := .calm _ (hg N.machine)
  exact ⟨_, (Relation.ReflTransGen.head hfirst hpath).tail hlast, congrArg g hN, hframes⟩

private theorem Follows.withTarget (h : Follows P x) (target : Target) :
    Follows P (withTarget target x) :=
  h.between (f := fun m => { m with thread := m.thread.enter target })
    (g := fun m => { m with thread := m.thread.leave })
    (fun _ aspect => by cases aspect <;> rfl) (fun _ aspect => by cases aspect <;> rfl)

private theorem Follows.suspendIf (h : Follows P x) (suspended : Bool) :
    Follows P (suspendIf suspended x) := by
  cases suspended with
  | false => exact h
  | true =>
    exact h.between (f := fun m => { m with thread := m.thread.suspend })
      (g := fun m => { m with thread := m.thread.resume })
      (fun _ aspect => by cases aspect <;> rfl) (fun _ aspect => by cases aspect <;> rfl)

private theorem discipline_follows : Discipline (σ := σ) Follows where
  quiet h := h.follows
  bind hx hf := hx.bind hf
  withTarget target h := h.withTarget target
  suspendIf suspended h := h.suspendIf suspended

private theorem Follows.mapFault (h : Follows P x) (f : Fault → Fault) :
    Follows P (mapFault f x) := by
  refine ⟨fun M hM => ?_, fun m a ha => h.result m a ?_⟩
  · obtain ⟨N, hpath, hN, hframes⟩ := h.path M hM
    refine ⟨N, hpath, hN, fun hends => hframes fun hstalled => hends ?_⟩
    exact congrArg (Outcome.mapFault f) hstalled
  · change (x m).1.mapFault f = .ok a at ha
    cases ho : (x m).1 with
    | ok b => rw [ho] at ha; exact ha
    | fault | panic | stalled => rw [ho] at ha; exact nomatch ha

private theorem Follows.settle (h : Follows P x) : Follows (fun _ => True) (settle x) := by
  refine ⟨fun M hM => ?_, fun _ _ _ => trivial⟩
  obtain ⟨N, hpath, hN, hframes⟩ := h.path M hM
  unfold Action.settle
  rcases hxm : x M.machine with ⟨o, m⟩
  rw [hxm] at hN hframes
  cases o with
  | ok | fault | panic => exact ⟨N, hpath, hN, fun _ => hframes fun h => nomatch h⟩
  | stalled => exact ⟨N, hpath, hN, fun h => absurd rfl h⟩

end Action

open TensorLowering.Action

/-! ### One request -/

namespace Moment

/-- The lowering of a key began after `M` and ended at `L`; nothing was kept for the key. -/
structure Lowers (M : Moment σ) (aspect : Aspect) (key : CacheKey) (lower : Action σ Artifact)
    (o : Outcome Artifact) (L : Moment σ) : Prop where
  absent : ∀ a, ¬M.Keeps aspect key.label a
  begins : M.Step (M.begin aspect key)
  path : (M.begin aspect key).Path L
  run : lower (M.begin aspect key).machine = (o, L.machine)
  frames : o ≠ .stalled → L.frames = M.frame aspect key :: M.frames

/-- How the artifact of a key is obtained: the slot that is found or the way the request ends, the
artifact that is found in the slot, and the moment after. -/
inductive Obtains (M : Moment σ) (aspect : Aspect) (key : CacheKey) (lower : Action σ Artifact) :
    Outcome Nat → Outcome Artifact → Moment σ → Prop where
  /-- It is kept, and used once more. -/
  | kept {n : Nat} {e : Entry} : (M.machine.cache aspect).content? n = some e →
      M.Keeps aspect key.label e.artifact →
      Obtains M aspect key lower (.ok n) (.ok e.artifact)
        { M with machine := M.machine.modifyCache aspect fun c => c.countUse n }
  /-- It is lowered afresh, whether or not the caches are cleared meanwhile. -/
  | succeed {a : Artifact} {L : Moment σ} : M.Lowers aspect key lower (.ok a) L →
      Obtains M aspect key lower (.ok (M.frame aspect key).slot) (.ok a)
        (L.succeed (M.frame aspect key) a)
  | fail {e : Fault} {L : Moment σ} : M.Lowers aspect key lower (.fault e) L →
      Obtains M aspect key lower (.fault e) (.fault e) (L.fail (M.frame aspect key))
  | panic {L : Moment σ} : M.Lowers aspect key lower .panic L →
      Obtains M aspect key lower .panic .panic (L.panic (M.frame aspect key))
  /-- Something inside the lowering waits for itself. -/
  | stalled {L : Moment σ} : M.Lowers aspect key lower .stalled L →
      Obtains M aspect key lower .stalled .stalled L
  /-- The request waits for the lowering in which it was issued. -/
  | waits : ¬M.Idle aspect key → Obtains M aspect key lower .stalled .stalled M

variable {M N L : Moment σ} {aspect : Aspect} {key : CacheKey} {lower : Action σ Artifact}
  {o : Outcome Nat} {o' p : Outcome Artifact}

private theorem Lowers.toPath (h : M.Lowers aspect key lower p L) : M.Path L :=
  Relation.ReflTransGen.head h.begins h.path

private theorem Obtains.path (h : M.Obtains aspect key lower o o' N) : M.Path N := by
  cases h with
  | kept => exact .single (.touch aspect _ fun _ => rfl)
  | succeed h => exact h.toPath.tail (.succeed _ (h.frames fun h => nomatch h))
  | fail h => exact h.toPath.tail (.fail (h.frames fun h => nomatch h))
  | panic h => exact h.toPath.tail (.panic (h.frames fun h => nomatch h))
  | stalled h => exact h.toPath
  | waits => exact .refl

/-- A request leaves no lowering behind, unless it waits for itself. -/
private theorem Obtains.frames (h : M.Obtains aspect key lower o o' N) (ho : o ≠ .stalled) :
    N.frames = M.frames := by
  cases h with
  | kept => rfl
  | succeed h => exact congrArg List.tail (h.frames fun h => nomatch h)
  | fail h => exact congrArg List.tail (h.frames fun h => nomatch h)
  | panic h => exact congrArg List.tail (h.frames fun h => nomatch h)
  | stalled | waits => exact absurd rfl ho

/-- The slot that is found holds the artifact, also if it was taken away from its key. -/
private theorem Obtains.content? {n : Nat} (h : M.Obtains aspect key lower (.ok n) p N)
    (hM : M.Sound) : ∃ e, p = .ok e.artifact ∧ (N.machine.cache aspect).content? n = some e := by
  cases h with
  | @kept k e hcontent _ =>
    refine ⟨{ e with uses := e.uses + 1 }, rfl, ?_⟩
    rw [Machine.cache_modifyCache, if_pos rfl, Cache.countUse, Cache.content?_modifyEntry,
      if_pos rfl, hcontent]
    rfl
  | @succeed a L h =>
    have hframes := h.frames fun h => nomatch h
    -- its slot is still there, although the key may have another one by now
    have htracks := (hM.path h.toPath).tracks aspect
    have hmem : M.frame aspect key ∈ L.framesIn aspect := by
      simp [framesIn, hframes, frame]
    refine ⟨⟨a, 0, none⟩, rfl, ?_⟩
    change ((L.machine.modifyCache aspect _).cache aspect).content? _ = _
    rw [Machine.cache_modifyCache, if_pos rfl, Cache.content?_setBusy,
      Cache.content?_fill (htracks.lt_slot hmem), if_pos rfl]

/-- The artifact that is answered. -/
private theorem Obtains.run_entryOf (h : M.Obtains aspect key lower o p N) (hM : M.Sound)
    (hrun : obtain aspect key lower M.machine = (o, N.machine)) :
    Action.bind (obtain aspect key lower)
      (fun n => do return (← TensorLowering.entryOf aspect n).artifact) M.machine =
        (p, N.machine) := by
  unfold Action.bind
  rw [hrun]
  cases o with
  | ok n =>
    obtain ⟨e, rfl, he⟩ := h.content? hM
    change Action.bind _ _ N.machine = _
    unfold Action.bind
    rw [Refines.entryOf_eq he]
    rfl
  | fault | panic | stalled => cases h <;> rfl

/-- If somebody works on the slot of a key, it is a lowering of the key that began after the caches
were cleared. -/
private theorem Sound.not_idle (h : M.Sound)
    (hbusy : ((M.machine.cache aspect).slotFor key).2.isBusy
      ((M.machine.cache aspect).slotFor key).1 = true) : ¬M.Idle aspect key := by
  have htracks := (h.tracks aspect).slotFor key
  obtain ⟨fr, hfr, hslot⟩ := (htracks.busy _).mp hbusy
  have hlabel : ((M.machine.cache aspect).slotFor key).2.slotOf? key.label = some fr.slot := by
    rw [Cache.slotOf?_slotFor, if_pos rfl, hslot]
  obtain ⟨hkey, hbegun⟩ := (htracks.mapped fr hfr _).mp hlabel
  rw [framesIn, List.mem_filter, decide_eq_true_eq] at hfr
  exact fun hidle => hidle fr hfr.1 hfr.2 hkey.symm hbegun

/-- **Obtaining an artifact**, by a lowering that follows the moments. -/
theorem Sound.obtains (h : M.Sound) (aspect : Aspect) (key : CacheKey)
    (hlower : Follows (fun _ => True) lower) :
    ∃ o o' N, obtain aspect key lower M.machine = (o, N.machine) ∧
      M.Obtains aspect key lower o o' N := by
  have htracks := h.tracks aspect
  have hfound : (M.machine.cache aspect).slotFor key =
      (((M.machine.cache aspect).slotFor key).1, ((M.machine.cache aspect).slotFor key).2) := rfl
  have hkept := Cache.kept?_slotFor (M.machine.cache aspect) key key.label
  have hlabel := Cache.slotOf?_slotFor (M.machine.cache aspect) key key.label
  rw [if_pos rfl] at hlabel
  rw [Cache.kept?_of_slotOf? hlabel] at hkept
  cases hbusy : ((M.machine.cache aspect).slotFor key).2.isBusy
      ((M.machine.cache aspect).slotFor key).1 with
  | true => exact ⟨.stalled, .stalled, M, if_pos hbusy, .waits (h.not_idle hbusy)⟩
  -- nobody works on the slot, so it tells what is kept for the key
  | false =>
    cases hcontent : ((M.machine.cache aspect).slotFor key).2.content?
        ((M.machine.cache aspect).slotFor key).1 with
    | some e =>
      have hsame := Cache.slotFor_of_content? hcontent
      have hkeeps : M.Keeps aspect key.label e.artifact := by
        rw [← htracks.kept, ← hkept, hcontent]
        rfl
      refine ⟨_, _, _, ?_, .kept (hsame ▸ hcontent) hkeeps⟩
      rw [obtain_hit hfound hbusy hcontent, hsame]
      cases aspect <;> rfl
    | none =>
      have habsent (a : Artifact) : ¬M.Keeps aspect key.label a := by
        rw [← htracks.kept, ← hkept, hcontent]
        exact fun h => nomatch h
      have hbegins : M.Step (M.begin aspect key) := .begin aspect key hbusy hcontent
      obtain ⟨L, hpath, hL, hframes⟩ := hlower.path _ (h.step hbegins)
      rcases hrun : lower (M.begin aspect key).machine with ⟨p, m⟩
      rw [hrun] at hL hframes
      obtain rfl : L.machine = m := hL
      have hresult : lower (M.machine.modifyCache aspect fun _ =>
          ((M.machine.cache aspect).slotFor key).2.setBusy
            ((M.machine.cache aspect).slotFor key).1 true) = (p, L.machine) := hrun
      rw [obtain_miss hfound hbusy hcontent, hresult]
      have hlowers : M.Lowers aspect key lower p L := ⟨habsent, hbegins, hpath, hrun, hframes⟩
      cases p with
      | ok a => exact ⟨_, _, _, rfl, .succeed hlowers⟩
      | fault e => exact ⟨_, _, _, rfl, .fail hlowers⟩
      | panic => exact ⟨_, _, _, rfl, .panic hlowers⟩
      | stalled => exact ⟨_, _, _, rfl, .stalled hlowers⟩

end Moment

namespace Action

private theorem follows_obtain {aspect : Aspect} {key : CacheKey} {lower : Action σ Artifact}
    (hlower : Follows (fun _ => True) lower) :
    Follows (fun _ => True) (obtain aspect key lower) := by
  refine ⟨fun M hM => ?_, fun _ _ _ => trivial⟩
  obtain ⟨o, o', N, hrun, hobtains⟩ := hM.obtains aspect key hlower
  rw [hrun]
  exact ⟨N, hobtains.path, rfl, hobtains.frames⟩

private theorem follows_claimName (base : String) :
    Follows (fun _ => True) (claimName base : Action σ String) := by
  refine ⟨fun M _ => ?_, fun _ _ _ => trivial⟩
  have hcaches (aspect : Aspect) :
      (claimName base M.machine).2.cache aspect = M.machine.cache aspect := by
    cases aspect <;> rfl
  exact ⟨_, .single (.calm _ hcaches), rfl, fun _ => rfl⟩

/-- An entry is changed, but not its artifact. -/
private theorem follows_touch (aspect : Aspect) (n : Nat) {f : Entry → Entry}
    (hf : ∀ e, (f e).artifact = e.artifact) :
    Follows (fun _ => True) (modify fun m : Machine σ =>
      m.modifyCache aspect fun c => c.modifyEntry n f) :=
  ⟨fun _ _ => ⟨_, .single (.touch aspect n hf), rfl, fun _ => rfl⟩, fun _ _ _ => trivial⟩

private theorem follows_stall {P : α → Prop} : Follows P (stall : Action σ α) :=
  ⟨fun M _ => ⟨M, .refl, rfl, fun _ => rfl⟩, fun _ _ h => nomatch h⟩

private theorem follows_read (f : Machine σ → α) : Follows (fun _ => True) (read f) :=
  ⟨fun M _ => ⟨M, .refl, rfl, fun _ => rfl⟩, fun _ _ _ => trivial⟩

private theorem follows_clear : Follows (fun _ => True) (modify (Machine.clear (σ := σ))) :=
  ⟨fun M _ => ⟨M.clear, .single (.clear M), rfl, fun _ => rfl⟩, fun _ _ _ => trivial⟩

end Action

/-- A function that is lowered gets a name and a number. -/
private theorem Engine.follows_named {g : Engine σ} {aspect : Aspect} {key : CacheKey}
    (h : Follows (fun _ => True) ((g.walk aspect key).lower key.source)) :
    Follows (fun _ => True) (g.lowerArtifact aspect key) := by
  rw [g.lowerArtifact_eq_claim]
  refine h.bind fun _ _ => (follows_claimName _).bind fun _ _ => ?_
  exact quiet_freshNumber.follows.bind fun _ _ => follows_pure trivial

/-- **What a request does with the engine** leads from moment to moment. -/
theorem Action.service_follows : Service (σ := σ) Follows where
  toDiscipline := discipline_follows
  mapFault f h := h.mapFault f
  settle h := h.settle
  stall := follows_stall
  read := follows_read
  touch := follows_touch
  clear := follows_clear
  obtainArtifact _ _ _ h := follows_obtain (Engine.follows_named h)

namespace Engine

variable {g : Engine σ}

private theorem follows_lowerArtifact (hg : g.collaborators.Keeps Follows) (aspect : Aspect)
    (key : CacheKey) : Follows (fun _ => True) (g.lowerArtifact aspect key) :=
  follows_named (discipline_follows.lower (w := g.walk aspect key) hg key.source)

private theorem follows_request (hg : g.collaborators.Keeps Follows) (r : Request) :
    Follows (fun _ => True) (g.request r) :=
  service_follows.request hg r

/-- What collaborators do follows the moments, at every depth. -/
private theorem follows_nested (config : Config) {C : (Request → Action σ Answer) → Collaborators σ}
    (hC : ∀ ask, (C ask).Keeps (Action.Issues ask)) (depth : Nat) :
    (nested config C depth).collaborators.Keeps Follows :=
  service_follows.nested hC depth

end Engine

private theorem Action.Issues.follows {ask : Request → Action σ Answer}
    (hask : ∀ r, Follows (fun _ => True) (ask r)) {P : α → Prop} {x : Action σ α}
    (h : Issues ask P x) : Follows P x :=
  service_follows.of_issues hask h

/-! ### The caches at every moment -/

/-- What the caches show at a moment, and what an engine does from this moment on. -/
structure Moment.Faithful (g : Engine σ) (M : Moment σ) : Prop where
  /-- The caches list exactly what was lowered since they were cleared. -/
  exact : M.Exact
  /-- What issues requests leads to another moment, and leaves no lowering behind. -/
  leads : ∀ {α : Type} {P : α → Prop} {x : Action σ α}, Issues g.request P x →
    ∃ N, M.Path N ∧ N.machine = (x M.machine).2 ∧
      ((x M.machine).1 ≠ .stalled → N.frames = M.frames)
  /-- A function is answered from the cache or else lowered afresh. It is answered, too, if the
  caches were cleared while it was lowered. -/
  lower : ∀ aspect key target, ∃ o p N,
    M.Obtains aspect key (g.lowerArtifact aspect key) o p N ∧
      g.lower aspect (.key key) target M.machine =
        (p.mapFault fun e => .lowering e key.source.text, N.machine)
  /-- A function that is to be made callable is obtained in the same way. -/
  jit : ∀ key target, ∃ o p N, M.Obtains .values key (g.lowerArtifact .values key) o p N ∧
    g.jit (.key key) target M.machine =
      Action.mapFault (fun e => .lowering e key.source.text)
        (Action.bind (fun _ => (o, N.machine)) g.obtainEntryPoint) M.machine
  /-- A lowering that ends well is kept, unless the caches were cleared since it began. -/
  succeed : ∀ fr rest a, M.frames = fr :: rest → M.Path (M.succeed fr a) ∧
    ∀ aspect l b, (M.succeed fr a).Keeps aspect l b ↔
      (aspect = fr.aspect ∧ l = fr.key.label ∧ b = a ∧ fr.begun = M.clears) ∨
        M.Keeps aspect l b
  /-- A lowering that fails takes away no slot of another key, and none of its own key that was
  made after the caches were cleared. -/
  fail : ∀ fr rest, M.frames = fr :: rest → M.Path (M.fail fr) ∧
    ∀ aspect l, ¬(aspect = fr.aspect ∧ l = fr.key.label ∧ fr.begun = M.clears) →
      ((M.fail fr).machine.cache aspect).slotOf? l = (M.machine.cache aspect).slotOf? l ∧
        ((M.fail fr).machine.cache aspect).content? = (M.machine.cache aspect).content?
  /-- Clearing forgets everything. -/
  clear : g.serve .clear M.machine = (.cleared, M.clear.machine) ∧ M.Path M.clear ∧
    ∀ aspect l a, ¬M.clear.Keeps aspect l a
  /-- What is kept stays until the caches are cleared. -/
  stays : ∀ N, M.Path N → N.clears = M.clears → ∀ aspect l a, M.Keeps aspect l a →
    N.Keeps aspect l a

/-- **Requests inside requests.** Whatever requests the collaborators of an engine issue while
functions are lowered, and however these end: at every moment of a run on a new machine the caches
list exactly what was lowered successfully since they were cleared. A lowering that is overtaken by
a clearing is answered but not kept, what is lowered after the clearing stays, and a lowering that
fails takes away nothing but its own slot. -/
theorem Engine.nested_faithful (config : Config)
    {C : (Request → Action σ Answer) → Collaborators σ}
    (hC : ∀ ask, (C ask).Keeps (Action.Issues ask)) (depth : Nat) (own : σ) (next : Nat)
    {M : Moment σ} (hM : (Moment.start own next).Path M) :
    M.Faithful (nested config C depth) := by
  have hfollows := follows_nested config hC depth
  have hsound : M.Sound := (Moment.sound_start own next).path hM
  constructor
  case exact => exact hsound.exact
  case leads =>
    intro α P x hx
    exact (hx.follows fun r => follows_request hfollows r).path M hsound
  case lower =>
    intro aspect key target
    obtain ⟨o, p, N, hrun, hobtains⟩ :=
      hsound.obtains aspect key (follows_lowerArtifact hfollows aspect key)
    refine ⟨o, p, N, hobtains, ?_⟩
    let wrap (r : Outcome Artifact × Machine σ) : Outcome Artifact × Machine σ :=
      (r.1.mapFault fun e => .lowering e key.source.text, r.2)
    exact congrArg wrap (hobtains.run_entryOf hsound hrun)
  case jit =>
    intro key target
    obtain ⟨o, p, N, hrun, hobtains⟩ :=
      hsound.obtains .values key (follows_lowerArtifact hfollows .values key)
    refine ⟨o, p, N, hobtains, ?_⟩
    change Action.mapFault _ (Action.bind (obtain _ _ _) _) M.machine = _
    unfold Action.mapFault Action.bind
    rw [hrun]
  case succeed =>
    intro fr rest a hframes
    exact ⟨.single (.succeed a hframes), fun _ _ _ => Moment.keeps_succeed_iff⟩
  case fail =>
    intro fr rest hframes
    refine ⟨.single (.fail hframes), fun aspect l hother => ?_⟩
    exact ⟨hsound.slotOf?_fail hframes hother, funext fun n => Moment.content?_fail aspect n⟩
  case clear =>
    refine ⟨rfl, .single (.clear M), fun aspect l a hkeeps => ?_⟩
    exact absurd (hsound.begun _ hkeeps) (Nat.not_succ_le_self M.clears)
  case stays =>
    intro N hpath hclears aspect l a hkeeps
    exact hkeeps.path hpath hclears

/-- A lowering that is overtaken: while a function with `outer` is lowered, its strategy has a
function with `inner` lowered, clears the caches, and has the other one lowered again. -/
theorem Engine.nested_faithful_overtaken :
    let ty : Ty := .tensor ⟨[.imm 4 .int64], .float 32⟩
    let f (op : String) : Function :=
      .ofBody [⟨0, "x", ty⟩] (.call 1 op .empty [.var 0 ⟨0, "x", ty⟩] ty)
    let inner : Request := .lower .values (.function (f "inner")) (some ⟨.llvm, .empty⟩)
    let C := Collaborators.asking fun op => if op = "outer" then [inner, .clear, inner] else []
    let M := (Moment.start () 0).begin .values (.of (f "outer") ⟨.llvm, .empty⟩)
    (∀ ask, (C ask).Keeps (Action.Issues ask)) ∧ (Moment.start () 0).Path M ∧
      M.Faithful (nested .standard C 1) := by
  intro ty f inner C M
  have hC (ask : Request → Action Unit Answer) : (C ask).Keeps (Action.Issues ask) :=
    Collaborators.asking_keeps _ ask
  have hM : (Moment.start () 0).Path M := .single (.begin _ _ rfl rfl)
  exact ⟨hC, hM, Engine.nested_faithful .standard hC 1 () 0 hM⟩

end TensorLowering
