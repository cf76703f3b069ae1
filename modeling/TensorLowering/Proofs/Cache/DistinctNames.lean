import TensorLowering.Proofs.Cache.Reentry

/-!
# The names of artifacts

Every artifact that a machine ever made is in a slot of one of its caches, also after the slot was
taken away from its key. `Machine.Distinct` says that the artifacts in the slots have different
names, all of which were handed out. A name that is handed out now was not handed out before, and so
it is the name of no artifact yet; what happens until the artifact is in its slot, other lowerings
included, only adds to the names and to the artifacts (`Machine.Grows`).

An action is *distinct* (`Action.Distinct`) if it keeps the names different and lets the machine
grow. A request is, if the collaborators are (`Action.service_distinct`). So in a nested engine,
whatever is requested, two artifacts never have one name (`Engine.names_distinct`).
-/

namespace TensorLowering

variable {σ α β : Type}

/-! ### Artifacts and their names -/

/-- A slot of one of the caches. -/
abbrev Place := Aspect × Nat

namespace Machine

/-- The artifact in a slot. -/
def made? (m : Machine σ) (p : Place) : Option Artifact :=
  ((m.cache p.1).content? p.2).map (·.artifact)

/-- Whether somebody works on a slot. -/
def worked (m : Machine σ) (p : Place) : Bool := (m.cache p.1).isBusy p.2

/-- **No two artifacts have one name.** -/
structure Distinct (m : Machine σ) : Prop where
  proper : ∀ aspect, (m.cache aspect).Proper
  /-- The name of an artifact was handed out. -/
  handed : ∀ p a, m.made? p = some a → a.name ∈ m.names.names
  distinct : ∀ p q a b, m.made? p = some a → m.made? q = some b → a.name = b.name → p = q

/-- Names that were handed out stay so, artifacts stay in their slots, and nothing is done to the
slots that somebody else works on. -/
structure Grows (m n : Machine σ) : Prop where
  names : m.names.names ⊆ n.names.names
  made : ∀ p a, m.made? p = some a → n.made? p = some a
  worked : ∀ p, m.worked p = true → n.worked p = true ∧ n.made? p = m.made? p

variable {m n k : Machine σ}

theorem Grows.refl (m : Machine σ) : m.Grows m :=
  ⟨List.Subset.refl _, fun _ _ h => h, fun _ h => ⟨h, rfl⟩⟩

theorem Grows.trans (h : m.Grows n) (h' : n.Grows k) : m.Grows k := by
  refine ⟨fun _ hp => h'.names (h.names hp), fun p a hp => h'.made p a (h.made p a hp),
    fun p hp => ?_⟩
  obtain ⟨hn, hmade⟩ := h.worked p hp
  obtain ⟨hk, hmade'⟩ := h'.worked p hn
  exact ⟨hk, hmade'.trans hmade⟩

/-- No artifact is made. -/
theorem Distinct.of_made_eq (h : m.Distinct) (hproper : ∀ aspect, (n.cache aspect).Proper)
    (hmade : n.made? = m.made?) (hnames : m.names.names ⊆ n.names.names) : n.Distinct := by
  refine ⟨hproper, fun p a hp => ?_, fun p q a b hp hq => ?_⟩
  · rw [hmade] at hp
    exact hnames (h.handed p a hp)
  · rw [hmade] at hp hq
    exact h.distinct p q a b hp hq

/-- No artifact is made, and nobody stops working on a slot. -/
theorem Distinct.still (h : m.Distinct) (hproper : ∀ aspect, (n.cache aspect).Proper)
    (hmade : n.made? = m.made?) (hnames : m.names.names ⊆ n.names.names)
    (hworked : ∀ p, m.worked p = true → n.worked p = true) : n.Distinct ∧ m.Grows n := by
  refine ⟨h.of_made_eq hproper hmade hnames, hnames, fun p a hp => ?_, fun p hp => ?_⟩
  · rw [hmade]
    exact hp
  · rw [hmade]
    exact ⟨hworked p hp, rfl⟩

/-- The caches stay as they are. -/
theorem Distinct.of_cache_eq (h : m.Distinct) (hcache : ∀ aspect, n.cache aspect = m.cache aspect)
    (hnames : m.names.names ⊆ n.names.names) : n.Distinct ∧ m.Grows n := by
  refine h.still (fun aspect => ?_) (funext fun p => ?_) hnames fun p hp => ?_
  · rw [hcache]
    exact h.proper aspect
  · rw [made?, made?, hcache]
  · rw [worked, hcache]
    exact hp

private theorem made?_modifyCache (m : Machine σ) (aspect : Aspect) (f : Cache → Cache)
    (p : Place) : (m.modifyCache aspect f).made? p = if p.1 = aspect then
      ((f (m.cache aspect)).content? p.2).map (·.artifact) else m.made? p := by
  rw [made?, cache_modifyCache]
  split
  · rfl
  · rfl

private theorem worked_modifyCache (m : Machine σ) (aspect : Aspect) (f : Cache → Cache)
    (p : Place) : (m.modifyCache aspect f).worked p =
      if p.1 = aspect then (f (m.cache aspect)).isBusy p.2 else m.worked p := by
  rw [worked, cache_modifyCache]
  split
  · rfl
  · rfl

private theorem names_subset_modifyCache (m : Machine σ) (aspect : Aspect) (f : Cache → Cache) :
    m.names.names ⊆ (m.modifyCache aspect f).names.names := by
  rw [names_modifyCache]
  exact List.Subset.refl _

private theorem proper_modifyCache {aspect : Aspect} {f : Cache → Cache}
    (h : ∀ b, (m.cache b).Proper) (hf : (f (m.cache aspect)).Proper) (b : Aspect) :
    ((m.modifyCache aspect f).cache b).Proper := by
  rw [cache_modifyCache]
  split
  · exact hf
  · exact h b

/-- One cache is changed, but not the artifacts in it. -/
theorem made?_modifyCache_eq {aspect : Aspect} {f : Cache → Cache}
    (hf : ∀ n, ((f (m.cache aspect)).content? n).map (·.artifact) =
      ((m.cache aspect).content? n).map (·.artifact)) :
    (m.modifyCache aspect f).made? = m.made? := by
  funext p
  rw [made?_modifyCache]
  split
  · next hp => rw [hf, made?, hp]
  · rfl

/-- One cache is changed, but not the artifacts in it, and nobody stops working on a slot. -/
theorem Distinct.modifyCache (h : m.Distinct) {aspect : Aspect} {f : Cache → Cache}
    (hproper : (f (m.cache aspect)).Proper)
    (hmade : ∀ n, ((f (m.cache aspect)).content? n).map (·.artifact) =
      ((m.cache aspect).content? n).map (·.artifact))
    (hworked : ∀ n, (m.cache aspect).isBusy n = true → (f (m.cache aspect)).isBusy n = true) :
    (m.modifyCache aspect f).Distinct ∧ m.Grows (m.modifyCache aspect f) := by
  refine h.still (proper_modifyCache h.proper hproper) (made?_modifyCache_eq hmade)
    (names_subset_modifyCache m aspect f) fun p hp => ?_
  rw [worked_modifyCache]
  split
  · next hb => exact hworked _ (hb ▸ hp)
  · exact hp

/-- The work on a slot ends that was taken away or left as it was. -/
private theorem Distinct.release (h : m.Distinct) {aspect : Aspect} {slot : Nat} {f : Cache → Cache}
    (hproper : (f (m.cache aspect)).Proper)
    (hmade : ∀ k, (f (m.cache aspect)).content? k = (m.cache aspect).content? k) :
    (m.modifyCache aspect fun c => (f c).setBusy slot false).Distinct := by
  refine h.of_made_eq (proper_modifyCache h.proper (hproper.modify slot _))
    (made?_modifyCache_eq fun k => ?_) (names_subset_modifyCache m aspect _)
  rw [Cache.content?_setBusy, hmade]

private theorem made?_fill {aspect : Aspect} {slot : Nat}
    (hslot : slot < (m.cache aspect).slots.size) (a : Artifact) (p : Place) :
    (m.modifyCache aspect fun c => (c.fill slot a).setBusy slot false).made? p =
      if p = (aspect, slot) then some a else m.made? p := by
  obtain ⟨b, k⟩ := p
  rw [made?_modifyCache, Cache.content?_setBusy, Cache.content?_fill hslot]
  by_cases hb : b = aspect
  · subst hb
    by_cases hk : slot = k
    · simp [hk]
    · simp [hk, Ne.symm hk, made?]
  · simp [hb]

/-- An artifact with a name of its own is put into an empty slot. -/
private theorem Distinct.fill (h : m.Distinct) {aspect : Aspect} {slot : Nat}
    (hslot : slot < (m.cache aspect).slots.size) {a : Artifact} (hname : a.name ∈ m.names.names)
    (hnew : ∀ p b, m.made? p = some b → b.name ≠ a.name) :
    (m.modifyCache aspect fun c => (c.fill slot a).setBusy slot false).Distinct := by
  refine ⟨proper_modifyCache h.proper (((h.proper aspect).modify slot _).modify slot _), ?_, ?_⟩
  · intro p b hp
    rw [names_modifyCache]
    rw [made?_fill hslot] at hp
    split at hp
    · obtain rfl := Option.some.inj hp
      exact hname
    · exact h.handed p b hp
  · intro p q b c hp hq hbc
    rw [made?_fill hslot] at hp hq
    split at hp <;> split at hq
    · next hp' hq' => rw [hp', hq']
    · obtain rfl := Option.some.inj hp
      exact absurd hbc.symm (hnew q c hq)
    · obtain rfl := Option.some.inj hq
      exact absurd hbc (hnew p b hp)
    · exact h.distinct p q b c hp hq hbc

/-- The work on a slot ends that began after `m`; what was done to the slot concerns nothing that
was there at `m`. -/
private theorem Grows.leave (h : m.Grows n) {aspect : Aspect} {slot : Nat} {f : Cache → Cache}
    (hslot : slot < (f (n.cache aspect)).slots.size) (hfree : m.worked (aspect, slot) = false)
    (hempty : m.made? (aspect, slot) = none)
    (hmade : ∀ k, slot ≠ k → ((f (n.cache aspect)).content? k).map (·.artifact) =
      ((n.cache aspect).content? k).map (·.artifact))
    (hworked : ∀ k, (f (n.cache aspect)).isBusy k = (n.cache aspect).isBusy k) :
    m.Grows (n.modifyCache aspect fun c => (f c).setBusy slot false) := by
  have hmade' (p : Place) (hp : p ≠ (aspect, slot)) :
      (n.modifyCache aspect fun c => (f c).setBusy slot false).made? p = n.made? p := by
    rw [made?_modifyCache, Cache.content?_setBusy]
    split
    · next hb => rw [hmade _ fun hk => hp (Prod.ext hb hk.symm), made?, hb]
    · rfl
  have hworked' (p : Place) (hp : p ≠ (aspect, slot)) :
      (n.modifyCache aspect fun c => (f c).setBusy slot false).worked p = n.worked p := by
    rw [worked_modifyCache, Cache.isBusy_setBusy hslot]
    split
    · next hb =>
      rw [if_neg fun hk => hp (Prod.ext hb hk.symm), hworked, Machine.worked, hb]
    · rfl
  refine ⟨fun _ hname => names_subset_modifyCache n aspect _ (h.names hname), fun p a hp => ?_,
    fun p hp => ?_⟩
  · have hne : p ≠ (aspect, slot) := by
      rintro rfl
      rw [hempty] at hp
      cases hp
    rw [hmade' p hne]
    exact h.made p a hp
  · have hne : p ≠ (aspect, slot) := by
      rintro rfl
      rw [hfree] at hp
      cases hp
    rw [hmade' p hne, hworked' p hne]
    exact h.worked p hp

section

variable {aspect : Aspect} {key : CacheKey} {slot : Nat} {c : Cache}

/-- The work on the slot of a key begins. -/
private theorem Distinct.begin (h : m.Distinct) (hslot : (m.cache aspect).slotFor key = (slot, c)) :
    (m.modifyCache aspect fun _ => c.setBusy slot true).Distinct ∧
      m.Grows (m.modifyCache aspect fun _ => c.setBusy slot true) ∧
      (m.modifyCache aspect fun _ => c.setBusy slot true).worked (aspect, slot) = true := by
  have hproper := (h.proper aspect).slotFor key
  have hlt := Cache.lt_slotFor (h.proper aspect) key
  have hcontent (k : Nat) := Cache.content?_slotFor (m.cache aspect) key k
  have hbusy (k : Nat) := Cache.isBusy_slotFor (m.cache aspect) key k
  simp only [hslot] at hproper hlt hcontent hbusy
  rw [← and_assoc]
  constructor
  · refine h.modifyCache (f := fun _ => c.setBusy slot true) (hproper.modify slot _) (fun k => ?_)
      fun k hk => ?_
    · rw [Cache.content?_setBusy, hcontent]
    · rw [Cache.isBusy_setBusy hlt, hbusy]
      split
      · rfl
      · exact hk
  · rw [worked_modifyCache, if_pos rfl, Cache.isBusy_setBusy hlt, if_pos rfl]

/-- A request is served from the slot of its key. -/
private theorem Distinct.use (h : m.Distinct) (hslot : (m.cache aspect).slotFor key = (slot, c)) :
    (m.modifyCache aspect fun _ => c.countUse slot).Distinct ∧
      m.Grows (m.modifyCache aspect fun _ => c.countUse slot) := by
  have hproper := (h.proper aspect).slotFor key
  have hcontent (k : Nat) := Cache.content?_slotFor (m.cache aspect) key k
  have hbusy (k : Nat) := Cache.isBusy_slotFor (m.cache aspect) key k
  simp only [hslot] at hproper hcontent hbusy
  refine h.modifyCache (f := fun _ => c.countUse slot) (hproper.modify slot _) (fun k => ?_)
    fun k hk => ?_
  · rw [← hcontent]
    exact Cache.artifact_modifyEntry c slot (f := fun e => { e with uses := e.uses + 1 })
      (fun _ => rfl) k
  · rw [Cache.countUse, Cache.isBusy_modifyEntry, hbusy]
    exact hk

end

end Machine

/-! ### Actions that keep names apart -/

namespace Action

/-- An action that keeps the names of artifacts different; its results have a property. -/
structure Distinct (P : α → Prop) (x : Action σ α) : Prop where
  keeps : ∀ m : Machine σ, m.Distinct → (x m).2.Distinct ∧ m.Grows (x m).2
  result : ∀ m a, (x m).1 = .ok a → P a

variable {P : α → Prop} {Q : β → Prop} {x : Action σ α}

private theorem Quiet.distinct (h : Quiet P x) : Distinct P x := by
  refine ⟨fun m hm => ?_, h.result⟩
  have hsame := congrArg Prod.snd (h.tables m m.values m.shapes m.names)
  change (x m).2 = _ at hsame
  rw [hsame]
  refine hm.of_cache_eq (fun aspect => ?_) (List.Subset.refl _)
  cases aspect <;> rfl

/-- Two things in a row. -/
theorem Distinct.bind {f : α → Action σ β} (hx : Distinct P x) (hf : ∀ a, P a → Distinct Q (f a)) :
    Distinct Q (x >>= f) := by
  have hrun (m : Machine σ) : (x >>= f) m = Action.bind x f m := rfl
  refine ⟨fun m hm => ?_, fun m b hb => ?_⟩
  · obtain ⟨hdistinct, hgrows⟩ := hx.keeps m hm
    have hresult := hx.result m
    rw [hrun]
    unfold Action.bind
    rcases hxm : x m with ⟨o, n⟩
    rw [hxm] at hdistinct hgrows hresult
    cases o with
    | ok a =>
      obtain ⟨hdistinct', hgrows'⟩ := (hf a (hresult a rfl)).keeps n hdistinct
      exact ⟨hdistinct', hgrows.trans hgrows'⟩
    | fault | panic | stalled => exact ⟨hdistinct, hgrows⟩
  · obtain ⟨a, m', hxm, hfa⟩ := bind_eq_ok_iff.mp (Prod.ext hb rfl)
    exact (hf a (hx.result m a (congrArg Prod.fst hxm))).result m' b (congrArg Prod.fst hfa)

/-- Something between two changes that touch neither the caches nor the names. -/
private theorem Distinct.between (h : Distinct P x) {f g : Machine σ → Machine σ}
    (hf : ∀ m, (∀ aspect, (f m).cache aspect = m.cache aspect) ∧ (f m).names = m.names)
    (hg : ∀ m, (∀ aspect, (g m).cache aspect = m.cache aspect) ∧ (g m).names = m.names) :
    Distinct P fun m => ((x (f m)).1, g (x (f m)).2) := by
  refine ⟨fun m hm => ?_, fun m => h.result (f m)⟩
  obtain ⟨hbefore, hgrows⟩ := hm.of_cache_eq (hf m).1 (by rw [(hf m).2]; exact List.Subset.refl _)
  obtain ⟨hduring, hgrows'⟩ := h.keeps (f m) hbefore
  obtain ⟨hafter, hgrows''⟩ := hduring.of_cache_eq (hg (x (f m)).2).1
    (by rw [(hg (x (f m)).2).2]; exact List.Subset.refl _)
  exact ⟨hafter, (hgrows.trans hgrows').trans hgrows''⟩

private theorem Distinct.withTarget (h : Distinct P x) (target : Target) :
    Distinct P (withTarget target x) :=
  h.between (f := fun m => { m with thread := m.thread.enter target })
    (g := fun m => { m with thread := m.thread.leave })
    (fun _ => ⟨fun aspect => by cases aspect <;> rfl, rfl⟩)
    (fun _ => ⟨fun aspect => by cases aspect <;> rfl, rfl⟩)

private theorem Distinct.suspendIf (h : Distinct P x) (suspended : Bool) :
    Distinct P (suspendIf suspended x) := by
  cases suspended with
  | false => exact h
  | true =>
    exact h.between (f := fun m => { m with thread := m.thread.suspend })
      (g := fun m => { m with thread := m.thread.resume })
      (fun _ => ⟨fun aspect => by cases aspect <;> rfl, rfl⟩)
      (fun _ => ⟨fun aspect => by cases aspect <;> rfl, rfl⟩)

private theorem Distinct.mapFault (h : Distinct P x) (f : Fault → Fault) :
    Distinct P (mapFault f x) := by
  refine ⟨h.keeps, fun m a ha => h.result m a ?_⟩
  change (x m).1.mapFault f = .ok a at ha
  cases ho : (x m).1 with
  | ok b => rw [ho] at ha; exact ha
  | fault | panic | stalled => rw [ho] at ha; exact nomatch ha

private theorem Distinct.settle (h : Distinct P x) : Distinct (fun _ => True) (settle x) := by
  refine ⟨fun m hm => ?_, fun _ _ _ => trivial⟩
  have hkeeps := h.keeps m hm
  unfold Action.settle
  rcases hxm : x m with ⟨o, n⟩
  rw [hxm] at hkeeps
  cases o <;> exact hkeeps

private theorem distinct_claimName (base : String) :
    Distinct (fun _ => True) (claimName base : Action σ String) := by
  refine ⟨fun m hm => hm.of_cache_eq (fun aspect => by cases aspect <;> rfl) ?_,
    fun _ _ _ => trivial⟩
  change m.names.names ⊆ (m.names.claim base).2.names
  rw [NameTable.names_claim]
  exact List.subset_cons_self _ _

/-- An entry is changed, but not its artifact. -/
private theorem distinct_touch (aspect : Aspect) (n : Nat) {f : Entry → Entry}
    (hf : ∀ e, (f e).artifact = e.artifact) :
    Distinct (fun _ => True) (modify fun m : Machine σ =>
      m.modifyCache aspect fun c => c.modifyEntry n f) := by
  refine ⟨fun m hm => ?_, fun _ _ _ => trivial⟩
  refine Machine.Distinct.modifyCache (f := fun c => c.modifyEntry n f) hm
    ((hm.proper aspect).modify n _) (Cache.artifact_modifyEntry _ n hf) fun k hk => ?_
  rw [Cache.isBusy_modifyEntry]
  exact hk

private theorem distinct_clear : Distinct (fun _ => True) (modify (Machine.clear (σ := σ))) := by
  refine ⟨fun m hm => hm.still (fun aspect => ?_) (funext fun p => ?_) (List.Subset.refl _)
    fun p hp => ?_, fun _ _ _ => trivial⟩
  · cases aspect <;> exact Cache.proper_clear _
  · obtain ⟨aspect, n⟩ := p
    cases aspect <;> rfl
  · obtain ⟨aspect, n⟩ := p
    cases aspect <;> exact hp

/-! ### One request -/

/-- A lowering that gives its artifact a name that was handed out, and that no artifact has which
was made. -/
structure Naming (lower : Action σ Artifact) : Prop extends Distinct (fun _ => True) lower where
  handed : ∀ m a, (lower m).1 = .ok a → a.name ∈ (lower m).2.names.names
  new : ∀ m a, m.Distinct → (lower m).1 = .ok a →
    ∀ p b, (lower m).2.made? p = some b → b.name ≠ a.name

/-- A name that was just handed out is the name of no artifact. -/
private theorem naming_lowerArtifact {g : Engine σ} {aspect : Aspect} {key : CacheKey}
    (h : Distinct (fun _ => True) ((g.walk aspect key).lower key.source)) :
    Naming (g.lowerArtifact aspect key) := by
  have hclaim := g.lowerArtifact_eq_claim aspect key
  have hrun {m n : Machine σ} {a : Artifact} (hm : g.lowerArtifact aspect key m = (.ok a, n)) :
      ∃ lowered k, (g.walk aspect key).lower key.source m = (.ok lowered, k) ∧
        a.name = (k.names.claim (g.baseName aspect lowered)).1 ∧
        n.names = (k.names.claim (g.baseName aspect lowered)).2 ∧
        ∀ aspect, n.cache aspect = k.cache aspect := by
    rw [hclaim] at hm
    obtain ⟨lowered, k, hlower, hm⟩ := bind_eq_ok_iff.mp hm
    obtain ⟨ha, rfl⟩ := Prod.mk.inj hm
    obtain rfl := Outcome.ok.inj ha
    exact ⟨lowered, k, hlower, rfl, rfl, fun aspect => by cases aspect <;> rfl⟩
  constructor
  case toDistinct =>
    rw [hclaim]
    refine h.bind fun _ _ => (distinct_claimName _).bind fun _ _ => ?_
    exact quiet_freshNumber.distinct.bind fun _ _ => (quiet_pure trivial).distinct
  case handed =>
    intro m a ha
    obtain ⟨lowered, k, -, hname, hnames, -⟩ := hrun (Prod.ext ha rfl)
    rw [hname, hnames, NameTable.names_claim]
    exact List.mem_cons_self
  case new =>
    intro m a hm ha p b hb
    obtain ⟨lowered, k, hlower, hname, -, hcache⟩ := hrun (Prod.ext ha rfl)
    have hk : k.Distinct := by
      have hkeeps := (h.keeps m hm).1
      rwa [hlower] at hkeeps
    rw [Machine.made?, hcache] at hb
    intro heq
    rw [hname] at heq
    exact NameTable.claim_notMem k.names _ (heq ▸ hk.handed p b hb)

variable {aspect : Aspect} {key : CacheKey} {lower : Action σ Artifact} {m : Machine σ} {slot : Nat}
  {c : Cache}

/-- A lowering that begins in an empty slot. It and all that happens meanwhile leave the slot as it
is, so that it can be filled in the end. -/
private theorem Naming.obtain_miss (h : Naming lower) (hm : m.Distinct)
    (hslot : (m.cache aspect).slotFor key = (slot, c)) (hidle : c.isBusy slot = false)
    (hempty : c.content? slot = none) :
    (obtain aspect key lower m).2.Distinct ∧ m.Grows (obtain aspect key lower m).2 := by
  obtain ⟨hbegun, hbegins, hworks⟩ := hm.begin hslot
  have hfree : m.worked (aspect, slot) = false := by
    have hbusy := Cache.isBusy_slotFor (m.cache aspect) key slot
    rw [hslot] at hbusy
    exact hbusy.symm.trans hidle
  have hnone : m.made? (aspect, slot) = none := by
    have hcontent := Cache.content?_slotFor (m.cache aspect) key slot
    rw [hslot] at hcontent
    rw [Machine.made?, ← hcontent, hempty]
    rfl
  -- the lowering runs, and whatever it does, the slot is still there and still empty
  obtain ⟨hdistinct, hgrows⟩ := h.keeps _ hbegun
  have hhanded := h.handed (m.modifyCache aspect fun _ => c.setBusy slot true)
  have hnew := h.new (m.modifyCache aspect fun _ => c.setBusy slot true)
  rw [TensorLowering.obtain_miss hslot hidle hempty]
  rcases hlower : lower (m.modifyCache aspect fun _ => c.setBusy slot true) with ⟨o, n⟩
  rw [hlower] at hdistinct hgrows hhanded hnew
  have hsize : slot < (n.cache aspect).slots.size :=
    Cache.lt_of_isBusy (hgrows.worked (aspect, slot) hworks).1
  have hall := hbegins.trans hgrows
  cases o with
  | ok a =>
    refine ⟨hdistinct.fill hsize (hhanded a rfl) (hnew a hbegun rfl), ?_⟩
    refine hall.leave (f := fun c => c.fill slot a) ?_ hfree hnone (fun k hk => ?_) fun k => ?_
    · rw [Cache.fill, Cache.size_modify]
      exact hsize
    · rw [Cache.content?_fill hsize, if_neg hk]
    · exact Cache.isBusy_fill _ _ _ _
  | fault e =>
    refine ⟨hdistinct.release (f := fun c => c.detach key slot)
      ((hdistinct.proper aspect).detach key slot) fun k => ?_, ?_⟩
    · exact Cache.content?_detach _ _ _ _
    · refine hall.leave (f := fun c => c.detach key slot) ?_ hfree hnone (fun k _ => ?_) fun k => ?_
      · rw [Cache.slots_detach]
        exact hsize
      · rw [Cache.content?_detach]
      · exact Cache.isBusy_detach _ _ _ _
  | panic =>
    exact ⟨hdistinct.release (f := fun c => c) (hdistinct.proper aspect) fun _ => rfl,
      hall.leave (f := fun c => c) hsize hfree hnone (fun _ _ => rfl) fun _ => rfl⟩
  | stalled => exact ⟨hdistinct, hall⟩

/-- Nothing that a lowering does in between concerns the slot that it is for. -/
theorem Naming.obtain (h : Naming lower) :
    Distinct (fun _ => True) (obtain aspect key lower) := by
  refine ⟨fun m hm => ?_, fun _ _ _ => trivial⟩
  rcases hslot : (m.cache aspect).slotFor key with ⟨slot, c⟩
  cases hidle : c.isBusy slot with
  | true =>
    have hrun : TensorLowering.obtain aspect key lower m = (.stalled, m) := by
      unfold TensorLowering.obtain
      rw [hslot]
      exact if_pos hidle
    rw [hrun]
    exact ⟨hm, .refl m⟩
  | false =>
    cases hentry : c.content? slot with
    | none => exact h.obtain_miss hm hslot hidle hentry
    | some e =>
      rw [obtain_hit hslot hidle hentry]
      exact hm.use hslot

/-- **What a request does with the engine** keeps the names apart. -/
theorem service_distinct : Service (σ := σ) Distinct where
  quiet h := h.distinct
  bind hx hf := hx.bind hf
  withTarget target h := h.withTarget target
  suspendIf suspended h := h.suspendIf suspended
  mapFault f h := h.mapFault f
  settle h := h.settle
  stall := ⟨fun m hm => ⟨hm, .refl m⟩, fun _ _ h => nomatch h⟩
  read _ := ⟨fun m hm => ⟨hm, .refl m⟩, fun _ _ _ => trivial⟩
  touch := distinct_touch
  clear := distinct_clear
  obtainArtifact _ _ _ h := (naming_lowerArtifact h).obtain

end Action

/-! ### The names of all that was ever lowered -/

namespace Moment

variable {M N : Moment σ} {places : List Place}

/-- The lowerings that succeeded have filled these slots, one after the other. -/
structure Recorded (M : Moment σ) (places : List Place) : Prop where
  nodup : places.Nodup
  made : places.map M.machine.made? = M.succeeded.map fun s => some s.artifact

/-- What was recorded depends only on the artifacts that were made and on the requests that
succeeded. -/
theorem Recorded.of_made_eq (h : M.Recorded places) (hmade : N.machine.made? = M.machine.made?)
    (hsucceeded : N.succeeded = M.succeeded) : N.Recorded places :=
  ⟨h.nodup, by rw [hmade, hsucceeded, h.made]⟩

private theorem Recorded.exists_made (h : M.Recorded places) {p : Place} (hp : p ∈ places) :
    ∃ a, M.machine.made? p = some a := by
  have hmem : M.machine.made? p ∈ places.map M.machine.made? := List.mem_map_of_mem hp
  rw [h.made] at hmem
  obtain ⟨s, -, hs⟩ := List.mem_map.mp hmem
  exact ⟨s.artifact, hs.symm⟩

/-- **One step.** A lowering that succeeds fills a slot of its own. -/
theorem Recorded.step (h : M.Recorded places) (hM : M.Sound) (hstep : M.Step N) :
    ∃ places', N.Recorded places' := by
  cases hstep with
  | calm m hm => exact ⟨places, h.of_made_eq (funext fun p => by rw [Machine.made?, hm]; rfl) rfl⟩
  | touch aspect slot hf =>
    exact ⟨places, h.of_made_eq
      (Machine.made?_modifyCache_eq (Cache.artifact_modifyEntry _ slot hf)) rfl⟩
  | begin aspect key _ _ =>
    refine ⟨places, h.of_made_eq (Machine.made?_modifyCache_eq fun k => ?_) rfl⟩
    rw [Cache.content?_setBusy, Cache.content?_slotFor]
  | @succeed fr rest a hframes =>
    have htracks := hM.tracks fr.aspect
    rw [framesIn_cons hframes] at htracks
    have hempty : M.machine.made? (fr.aspect, fr.slot) = none := by
      rw [Machine.made?, htracks.blank fr List.mem_cons_self]
      rfl
    -- the slot that is lowered for is empty, so it is none of those that were filled before
    have hnew : (fr.aspect, fr.slot) ∉ places := by
      intro hmem
      obtain ⟨b, hb⟩ := h.exists_made hmem
      rw [hempty] at hb
      cases hb
    have hmade := Machine.made?_fill (htracks.lt_slot List.mem_cons_self) a
    refine ⟨(fr.aspect, fr.slot) :: places, List.nodup_cons.mpr ⟨hnew, h.nodup⟩, ?_⟩
    change _ :: places.map (Machine.made? _) = some a :: M.succeeded.map _
    rw [← h.made]
    congr 1
    · exact (hmade _).trans (if_pos rfl)
    · refine List.map_congr_left fun p hp => (hmade p).trans (if_neg ?_)
      rintro rfl
      exact hnew hp
  | @fail fr rest hframes =>
    refine ⟨places, h.of_made_eq (Machine.made?_modifyCache_eq fun k => ?_) rfl⟩
    rw [Cache.content?_setBusy, Cache.content?_detach]
  | @panic fr rest hframes =>
    refine ⟨places, h.of_made_eq (Machine.made?_modifyCache_eq fun k => ?_) rfl⟩
    rw [Cache.content?_setBusy]
  | clear =>
    refine ⟨places, h.of_made_eq (funext fun p => ?_) rfl⟩
    obtain ⟨aspect, k⟩ := p
    cases aspect <;> rfl

private theorem exists_recorded (own : σ) (next : Nat) (h : (start own next).Path M) :
    ∃ places, M.Recorded places := by
  induction h with
  | refl => exact ⟨[], List.nodup_nil, rfl⟩
  | tail hpath hstep ih =>
    obtain ⟨places, hplaces⟩ := ih
    exact hplaces.step ((sound_start own next).path hpath) hstep

/-- If no two artifacts in the slots have one name, then no two that were ever lowered have. -/
private theorem Recorded.nodup_names (h : M.Recorded places) (hM : M.machine.Distinct) :
    (M.succeeded.map (·.artifact.name)).Nodup := by
  have hnames : places.map (fun p => (M.machine.made? p).map (·.name)) =
      (M.succeeded.map (·.artifact.name)).map some := by
    have hmade := congrArg (List.map (Option.map Artifact.name)) h.made
    rw [List.map_map, List.map_map] at hmade
    rw [List.map_map]
    exact hmade
  refine List.Nodup.of_map some ?_
  rw [← hnames]
  refine h.nodup.map_on fun p hp q hq hpq => ?_
  obtain ⟨a, ha⟩ := h.exists_made hp
  obtain ⟨b, hb⟩ := h.exists_made hq
  rw [ha, hb] at hpq
  exact hM.distinct p q a b ha hb (Option.some.inj hpq)

end Moment

private theorem Machine.distinct_initial (own : σ) (next : Nat) :
    (Machine.initial own next).Distinct := by
  refine ⟨fun aspect => ?_, fun p a hp => ?_, fun p q a b hp => ?_⟩
  · cases aspect <;> exact Cache.proper_empty
  · obtain ⟨aspect, n⟩ := p
    cases aspect <;> cases hp
  · obtain ⟨aspect, n⟩ := p
    cases aspect <;> cases hp

/-- **Two artifacts never have one name.** Whatever is requested of an engine, with requests nested
to any depth and for both sides of a function, and whether the caches are cleared meanwhile: the
artifacts in the slots of both caches have different names, and so have, in every history that leads
from the new machine to this one, all artifacts that were ever lowered. There is such a history. -/
theorem Engine.names_distinct (config : Config)
    {C : (Request → Action σ Answer) → Collaborators σ}
    (hC : ∀ ask, (C ask).Keeps (Action.Issues ask)) (depth : Nat) (own : σ) (next : Nat)
    {P : α → Prop} {x : Action σ α} (hx : Action.Issues (nested config C depth).request P x) :
    (x (.initial own next)).2.Distinct ∧
    (∃ N, (Moment.start own next).Path N ∧ N.machine = (x (.initial own next)).2) ∧
    ∀ N, (Moment.start own next).Path N → N.machine = (x (.initial own next)).2 →
      (N.succeeded.map (·.artifact.name)).Nodup := by
  have hdistinct := ((Action.service_distinct.issues hC depth hx).keeps _
    (Machine.distinct_initial own next)).1
  have hfollows := Action.service_follows.issues hC depth hx
  obtain ⟨N, hpath, hN, -⟩ := hfollows.path _ (Moment.sound_start own next)
  refine ⟨hdistinct, ⟨N, hpath, hN⟩, fun N hpath hN => ?_⟩
  obtain ⟨places, hplaces⟩ := Moment.exists_recorded own next hpath
  exact hplaces.nodup_names (hN ▸ hdistinct)

/-- Both sides of a function are lowered, whose strategy has another one lowered, before and after
the caches are cleared. -/
theorem Engine.names_distinct_again :
    let ty : Ty := .tensor ⟨[.imm 4 .int64], .float 32⟩
    let f (op : String) : Function :=
      .ofBody [⟨0, "x", ty⟩] (.call 1 op .empty [.var 0 ⟨0, "x", ty⟩] ty)
    let lower (aspect : Aspect) (op : String) : Request :=
      .lower aspect (.function (f op)) (some ⟨.llvm, .empty⟩)
    let C := Collaborators.asking fun op => if op = "outer" then [lower .values "inner"] else []
    let ask := (nested .standard C 1).request
    let rs := [lower .values "outer", lower .shapes "outer", .clear, lower .values "outer"]
    (∀ ask, (C ask).Keeps (Action.Issues ask)) ∧
      Action.Issues ask (fun _ => True) (askAll ask rs) ∧
      (askAll ask rs (.initial () 0)).2.Distinct := by
  intro ty f lower C ask rs
  have hC (ask : Request → Action Unit Answer) : (C ask).Keeps (Action.Issues ask) :=
    Collaborators.asking_keeps _ ask
  have hx := issues_askAll ask rs
  exact ⟨hC, hx, (names_distinct .standard hC 1 () 0 hx).1⟩

end TensorLowering
