import TensorLowering.Proofs.Cache.Memo
import Mathlib.Data.List.Perm.Basic
import Mathlib.Data.String.Basic

/-!
# An engine refines a memo table

`Shows` relates a cache to a finite map: nobody works on a slot, and what the slot of a label holds
is what the map has under the label, where a label without a slot and one with an empty slot both
stand for an absent one. Each operation of the cache keeps this relation with the corresponding
operation of the map. `Refines` says this of both caches of a machine, and that the machine is
otherwise the world of the memo table.
-/

namespace TensorLowering

variable {σ : Type}

/-! ### One cache and one map -/

/-- The slots hold the entries of the map, and the names of the entries are told apart. -/
structure Shows (c : Cache) (t : Table) (names : List String) : Prop where
  proper : c.Proper
  idle : ∀ n, c.isBusy n = false
  entry : ∀ l, (c.slotOf? l).bind c.content? = t.lookup l
  taken : ∀ l e, t.lookup l = some e → e.artifact.name ∈ names
  apart : ∀ l l' e e', t.lookup l = some e → t.lookup l' = some e' →
    e.artifact.name = e'.artifact.name → l = l'

namespace Shows

variable {c : Cache} {t : Table} {names names' : List String} {key : CacheKey} {l : Label}
  {n : Nat} {e : Entry}

/-- The empty cache shows the empty table. -/
theorem empty : Shows .empty ∅ names :=
  ⟨Cache.proper_empty, fun _ => rfl, fun _ => rfl, (fun _ _ h => nomatch h),
    fun _ _ _ _ h => nomatch h⟩

/-- More names may have been claimed than the artifacts have. -/
theorem mono (h : Shows c t names) (hsub : names ⊆ names') : Shows c t names' :=
  ⟨h.proper, h.idle, h.entry, fun l e he => hsub (h.taken l e he), h.apart⟩

private theorem clear (h : Shows c t names) : Shows c.clear ∅ names :=
  ⟨c.proper_clear, h.idle, fun _ => rfl, (fun _ _ h => nomatch h), fun _ _ _ _ h => nomatch h⟩

/-- The entry of the slot of a label. -/
theorem content_eq (h : Shows c t names) (hn : c.slotOf? l = some n) :
    c.content? n = t.lookup l := by
  have := h.entry l
  rwa [hn] at this

/-- Making a slot for an absent label. -/
private theorem slotFor (h : Shows c t names) (key : CacheKey) :
    Shows (c.slotFor key).2 t names := by
  refine ⟨h.proper.slotFor key, fun n => ?_, fun l => ?_, h.taken, h.apart⟩
  · rw [Cache.isBusy_slotFor]
    exact h.idle n
  · rw [Cache.slotOf?_slotFor]
    split
    · next hl =>
      rw [Option.bind_some, Cache.content?_slotFor, ← h.entry l, hl]
      cases hs : c.slotOf? key.label with
      | some n => rw [Cache.slotFor_of_some hs]; rfl
      | none =>
        rw [Cache.slotFor_of_none hs]
        simp [Cache.content?]
    · rw [← h.entry l]
      congr 1
      funext n
      exact Cache.content?_slotFor c key n

/-- Changing the entry of a label, but not its name. -/
private theorem modifyEntry (h : Shows c t names) (hn : c.slotOf? l = some n)
    (he : t.lookup l = some e) {f : Entry → Entry} (hf : (f e).artifact.name = e.artifact.name) :
    Shows (c.modifyEntry n f) (t.insert l (f e)) names := by
  -- an entry of the new map is the changed one, or one of the old map
  have hcases (l' : Label) (e' : Entry) (hl : (t.insert l (f e)).lookup l' = some e') :
      ∃ d, t.lookup l' = some d ∧ d.artifact.name = e'.artifact.name := by
    by_cases heq : l' = l
    · subst heq
      rw [AList.lookup_insert] at hl
      obtain rfl := Option.some.inj hl
      exact ⟨e, he, hf.symm⟩
    · rw [AList.lookup_insert_ne heq] at hl
      exact ⟨e', hl, rfl⟩
  refine ⟨h.proper.modify n _, fun m => ?_, fun l' => ?_, fun l' e' hl => ?_,
    fun l₁ l₂ e₁ e₂ h₁ h₂ hname => ?_⟩
  · rw [Cache.isBusy_modifyEntry]
    exact h.idle m
  · change (c.slotOf? l').bind _ = _
    by_cases heq : l' = l
    · subst heq
      rw [AList.lookup_insert, hn, Option.bind_some, Cache.content?_modifyEntry, if_pos rfl,
        h.content_eq hn, he]
      rfl
    · rw [AList.lookup_insert_ne heq, ← h.entry l']
      cases hm : c.slotOf? l' with
      | none => rfl
      | some m =>
        have hne : n ≠ m := by
          rintro rfl
          exact heq (h.proper.label_inj hm hn)
        rw [Option.bind_some, Cache.content?_modifyEntry, if_neg hne]
        rfl
  · obtain ⟨d, hd, hname⟩ := hcases l' e' hl
    rw [← hname]
    exact h.taken l' d hd
  · obtain ⟨d₁, hd₁, hn₁⟩ := hcases l₁ e₁ h₁
    obtain ⟨d₂, hd₂, hn₂⟩ := hcases l₂ e₂ h₂
    exact h.apart l₁ l₂ d₁ d₂ hd₁ hd₂ (by rw [hn₁, hn₂, hname])

/-- Working on a slot, filling it with a new entry, and ending the work. -/
private theorem fill (h : Shows c t names) (hn : c.slotOf? l = some n) (ht : t.lookup l = none)
    {a : Artifact} (ha : a.name ∉ names) :
    Shows (((c.setBusy n true).fill n a).setBusy n false) (t.insert l ⟨a, 0, none⟩)
      (a.name :: names) := by
  have hlt := h.proper.lt_of_slotOf? hn
  have hlt₁ : n < (c.setBusy n true).slots.size := by
    unfold Cache.setBusy
    rwa [Cache.size_modify]
  have hlt₂ : n < ((c.setBusy n true).fill n a).slots.size := by
    unfold Cache.fill
    rwa [Cache.size_modify]
  refine ⟨((h.proper.modify n _).modify n _).modify n _, fun m => ?_, fun l' => ?_,
    fun l' e hl => ?_, fun l₁ l₂ e₁ e₂ h₁ h₂ hname => ?_⟩
  · rw [Cache.isBusy_setBusy hlt₂, Cache.isBusy_fill, Cache.isBusy_setBusy hlt]
    split
    · rfl
    · exact h.idle m
  · change (c.slotOf? l').bind _ = _
    by_cases heq : l' = l
    · subst heq
      rw [AList.lookup_insert, hn, Option.bind_some, Cache.content?_setBusy,
        Cache.content?_fill hlt₁, if_pos rfl]
    · rw [AList.lookup_insert_ne heq, ← h.entry l']
      cases hm : c.slotOf? l' with
      | none => rfl
      | some m =>
        have hne : n ≠ m := by
          rintro rfl
          exact heq (h.proper.label_inj hm hn)
        rw [Option.bind_some, Cache.content?_setBusy, Cache.content?_fill hlt₁, if_neg hne,
          Cache.content?_setBusy]
        rfl
  · by_cases heq : l' = l
    · subst heq
      rw [AList.lookup_insert] at hl
      obtain rfl := Option.some.inj hl
      exact List.mem_cons_self
    · rw [AList.lookup_insert_ne heq] at hl
      exact List.mem_cons_of_mem _ (h.taken l' e hl)
  · by_cases heq₁ : l₁ = l <;> by_cases heq₂ : l₂ = l
    · rw [heq₁, heq₂]
    · subst heq₁
      rw [AList.lookup_insert] at h₁
      rw [AList.lookup_insert_ne heq₂] at h₂
      obtain rfl := Option.some.inj h₁
      exact absurd (hname ▸ h.taken l₂ e₂ h₂) ha
    · subst heq₂
      rw [AList.lookup_insert] at h₂
      rw [AList.lookup_insert_ne heq₁] at h₁
      obtain rfl := Option.some.inj h₂
      exact absurd (hname ▸ h.taken l₁ e₁ h₁) ha
    · rw [AList.lookup_insert_ne heq₁] at h₁
      rw [AList.lookup_insert_ne heq₂] at h₂
      exact h.apart l₁ l₂ e₁ e₂ h₁ h₂ hname

/-- Working on an empty slot and leaving it empty. -/
private theorem leave (h : Shows c t names) (hn : c.slotOf? l = some n) :
    Shows ((c.setBusy n true).setBusy n false) t names := by
  have hlt := h.proper.lt_of_slotOf? hn
  have hlt₁ : n < (c.setBusy n true).slots.size := by
    unfold Cache.setBusy
    rwa [Cache.size_modify]
  refine ⟨(h.proper.modify n _).modify n _, fun m => ?_, fun l' => ?_, h.taken, h.apart⟩
  · rw [Cache.isBusy_setBusy hlt₁, Cache.isBusy_setBusy hlt]
    split
    · rfl
    · exact h.idle m
  · rw [← h.entry l']
    change (c.slotOf? l').bind _ = _
    congr 1
    funext m
    rw [Cache.content?_setBusy, Cache.content?_setBusy]

/-- Working on an empty slot and taking it away. -/
private theorem detach (h : Shows c t names) (hn : c.slotOf? key.label = some n)
    (ht : t.lookup key.label = none) :
    Shows (((c.setBusy n true).detach key n).setBusy n false) t names := by
  have hleft := h.leave hn
  have hlt := h.proper.lt_of_slotOf? hn
  refine ⟨((h.proper.modify n _).detach key n).modify n _, fun m => ?_, fun l' => ?_, h.taken,
    h.apart⟩
  · rw [Cache.isBusy_setBusy, Cache.isBusy_detach, Cache.isBusy_setBusy hlt]
    · split
      · rfl
      · exact h.idle m
    · rw [Cache.slots_detach]
      unfold Cache.setBusy
      rwa [Cache.size_modify]
  · change (((c.setBusy n true).detach key n).slotOf? l').bind _ = _
    rw [Cache.slotOf?_detach]
    split
    · next hl => rw [hl.1, ht]; rfl
    · rw [← h.entry l']
      change (c.slotOf? l').bind _ = _
      congr 1
      funext m
      rw [Cache.content?_setBusy, Cache.content?_detach, Cache.content?_setBusy]

/-! ### Listing -/

private theorem mem_shown_iff (h : Shows c t names) {e : Entry} :
    (l, e) ∈ (c.mapped.filterMap c.shown?).map (fun p => (p.1.label, p.2)) ↔
      t.lookup l = some e := by
  rw [List.mem_map]
  constructor
  · rintro ⟨⟨k, d⟩, hkd, heq⟩
    obtain ⟨p, hp, hshown⟩ := List.mem_filterMap.mp hkd
    unfold Cache.shown? at hshown
    rw [h.idle, if_neg Bool.false_ne_true] at hshown
    obtain ⟨d', hd', hpd⟩ := Option.map_eq_some_iff.mp hshown
    obtain ⟨rfl, rfl⟩ := Prod.mk.inj hpd
    obtain ⟨rfl, rfl⟩ := Prod.mk.inj heq
    rw [← h.content_eq (h.proper.slotOf?_of_mem hp)]
    exact hd'
  · intro ht
    cases hn : c.slotOf? l with
    | none =>
      rw [← h.entry l, hn] at ht
      exact nomatch ht
    | some n =>
      obtain ⟨k, hk, rfl⟩ := Cache.exists_of_slotOf? hn
      refine ⟨(k, e), List.mem_filterMap.mpr ⟨(k, n), hk, ?_⟩, rfl⟩
      unfold Cache.shown?
      rw [h.idle, if_neg Bool.false_ne_true, h.content_eq hn, ht]
      rfl

private theorem nodup_shown (h : Shows c t names) :
    ((c.mapped.filterMap c.shown?).map fun p => (p.1.label, p.2)).Nodup := by
  refine List.Nodup.of_map Prod.fst ?_
  rw [List.map_map]
  refine h.proper.labels.sublist ?_
  have hsub : ∀ ms : List (CacheKey × Nat),
      ((ms.filterMap c.shown?).map fun p => p.1.label).Sublist (ms.map fun p => p.1.label) := by
    intro ms
    induction ms with
    | nil => exact List.Sublist.slnil
    | cons m ms ih =>
      rw [List.filterMap_cons]
      split
      · exact ih.cons _
      · next p hp =>
        have : p.1 = m.1 := by
          unfold Cache.shown? at hp
          rw [h.idle, if_neg Bool.false_ne_true] at hp
          obtain ⟨d, -, rfl⟩ := Option.map_eq_some_iff.mp hp
          rfl
        rw [List.map_cons, List.map_cons, this]
        exact ih.cons_cons _
  exact hsub c.mapped

private theorem mem_entries_iff {e : Entry} :
    (l, e) ∈ t.entries.map (fun s => (s.1, s.2)) ↔ t.lookup l = some e := by
  rw [← Option.mem_def, AList.mem_lookup_iff, List.mem_map]
  constructor
  · rintro ⟨⟨l', e'⟩, hs, heq⟩
    obtain ⟨rfl, rfl⟩ := Prod.mk.inj heq
    exact hs
  · intro hs
    exact ⟨⟨l, e⟩, hs, rfl⟩

private theorem nodup_entries (t : Table) : (t.entries.map fun s => (s.1, s.2)).Nodup := by
  refine List.Nodup.of_map Prod.fst ?_
  rw [List.map_map]
  exact t.nodupKeys

/-- The order in which entries are listed. -/
private def before (a b : Label × Entry) : Bool :=
  decide (a.2.artifact.name ≤ b.2.artifact.name)

private theorem before_trans (a b d : Label × Entry) (h : before a b = true)
    (h' : before b d = true) : before a d = true := by
  unfold before at *
  rw [decide_eq_true_eq] at *
  exact le_trans h h'

private theorem before_total (a b : Label × Entry) : (before a b || before b a) = true := by
  unfold before
  rw [Bool.or_eq_true, decide_eq_true_eq, decide_eq_true_eq]
  exact le_total _ _

/-- The cache lists exactly the map. -/
private theorem items_eq (h : Shows c t names) :
    c.items.map (fun p => (p.1.label, p.2)) = t.items := by
  have hperm : ((c.mapped.filterMap c.shown?).map fun p => (p.1.label, p.2)).Perm
      (t.entries.map fun s => (s.1, s.2)) := by
    rw [List.perm_ext_iff_of_nodup h.nodup_shown (nodup_entries t)]
    rintro ⟨l, e⟩
    rw [h.mem_shown_iff, mem_entries_iff]
  refine (List.map_mergeSort (s := before) fun _ _ _ _ => rfl).trans ?_
  have hsort :=
    (List.mergeSort_perm _ before).trans (hperm.trans (List.mergeSort_perm _ before).symm)
  refine List.Perm.eq_of_pairwise ?_ (List.pairwise_mergeSort before_trans before_total _)
    (List.pairwise_mergeSort before_trans before_total _) hsort
  rintro ⟨l, e⟩ ⟨l', e'⟩ hmem hmem' hle hle'
  rw [List.mem_mergeSort, h.mem_shown_iff] at hmem
  rw [Table.items, List.mem_mergeSort, mem_entries_iff] at hmem'
  have hname : e.artifact.name = e'.artifact.name :=
    le_antisymm (of_decide_eq_true hle) (of_decide_eq_true hle')
  obtain rfl := h.apart l l' e e' hmem hmem' hname
  rw [hmem] at hmem'
  rw [Option.some.inj hmem']

end Shows

/-! ### A machine and a memo table -/

/-- The machine without its caches and names. -/
def Machine.world (m : Machine σ) : Machine σ := m.withTables .empty .empty .empty

/-- A calm action does in the world of a machine what it does on the machine. -/
theorem Action.Quiet.eq_world {α : Type} {P : α → Prop} {x : Action σ α} (h : x.Quiet P)
    (m : Machine σ) :
    x m = ((x m.world).1, (x m.world).2.withTables m.values m.shapes m.names) :=
  h.tables m.world m.values m.shapes m.names

/-- A calm action leaves a world a world. -/
private theorem Action.Quiet.world_eq {α : Type} {P : α → Prop} {x : Action σ α} (h : x.Quiet P)
    (m : Machine σ) : (x m.world).2.world = (x m.world).2 :=
  (congrArg Prod.snd (h.tables m.world .empty .empty .empty)).symm

/-- The cache of one aspect is modified. -/
theorem Machine.cache_modifyCache (m : Machine σ) (a b : Aspect) (f : Cache → Cache) :
    (m.modifyCache a f).cache b = if b = a then f (m.cache a) else m.cache b := by
  cases a <;> cases b <;> rfl

/-- The rest of the machine stays as it is. -/
theorem Machine.world_modifyCache (m : Machine σ) (a : Aspect) (f : Cache → Cache) :
    (m.modifyCache a f).world = m.world := by
  cases a <;> rfl

/-- No name is claimed. -/
theorem Machine.names_modifyCache (m : Machine σ) (a : Aspect) (f : Cache → Cache) :
    (m.modifyCache a f).names = m.names := by
  cases a <;> rfl

private theorem Memo.table_enter (s : Memo σ) (a b : Aspect) (l : Label) (e : Entry) :
    (s.enter a l e).table b = if b = a then (s.table a).insert l e else s.table b := by
  cases a <;> cases b <;> rfl

private theorem Memo.world_enter (s : Memo σ) (a : Aspect) (l : Label) (e : Entry) :
    (s.enter a l e).world = s.world := by
  cases a <;> rfl

private theorem Memo.names_enter (s : Memo σ) (a : Aspect) (l : Label) (e : Entry) :
    (s.enter a l e).names = s.names := by
  cases a <;> rfl

/-- The caches of a machine show the maps of a memo table, and the machine is otherwise its
world. -/
structure Refines (m : Machine σ) (s : Memo σ) : Prop where
  world : s.world = m.world
  names : s.names = m.names
  cache : ∀ a, Shows (m.cache a) (s.table a) m.names.names

namespace Refines

variable {m m' : Machine σ} {s s' : Memo σ} {aspect : Aspect} {key : CacheKey} {e : Entry}

/-- At the start the machine refines the memo. -/
theorem start (own : σ) (next : Nat) : Refines (.initial own next) (Memo.start own next) := by
  refine ⟨rfl, rfl, fun a => ?_⟩
  cases a <;> exact Shows.empty

/-- Changing one cache and its map. -/
private theorem modify (h : Refines m s) {f : Cache → Cache} (hworld : s'.world = s.world)
    (hnames : s'.names = s.names) (hother : ∀ a, a ≠ aspect → s'.table a = s.table a)
    (hshows : Shows (f (m.cache aspect)) (s'.table aspect) m.names.names) :
    Refines (m.modifyCache aspect f) s' := by
  have hn := m.names_modifyCache aspect f
  refine ⟨?_, ?_, fun a => ?_⟩
  · rw [hworld, Machine.world_modifyCache, h.world]
  · rw [hnames, hn, h.names]
  · rw [Machine.cache_modifyCache, hn]
    split
    · next ha => subst ha; exact hshows
    · next ha => rw [hother a ha]; exact h.cache a

end Refines

/-! ### Lowering -/

/-- Lowering touches neither map; it claims a name that is new, and only if it succeeds. -/
structure Memo.Lowers (s : Memo σ) (o : Outcome Artifact) (s' : Memo σ) : Prop where
  table : s'.table = s.table
  world : s'.world.world = s'.world
  runs : o ≠ .stalled
  name : ∀ a, o = .ok a → a.name ∉ s.names.names ∧ s'.names.names = a.name :: s.names.names
  names : (∀ a, o ≠ .ok a) → s'.names = s.names

private theorem Memo.Lowers.names_subset {s s' : Memo σ} {o : Outcome Artifact}
    (h : s.Lowers o s') : s.names.names ⊆ s'.names.names := by
  cases o with
  | ok a =>
    rw [(h.name a rfl).2]
    exact List.subset_cons_self _ _
  | fault e | panic | stalled =>
    rw [h.names fun a ha => nomatch ha]
    exact List.Subset.refl _

section

variable {g : Engine σ} (hg : g.collaborators.Quiet) {m : Machine σ} {s : Memo σ}

include hg

/-- Lowering leaves the tables as they are, and claims a name if it succeeds. -/
theorem Memo.lowers (aspect : Aspect) (key : CacheKey) (hw : s.world.world = s.world) :
    s.Lowers (s.lowering g aspect key).1 (s.lowering g aspect key).2 := by
  have hcalm := Walk.quiet_lower (w := g.walk aspect key) hg key.source
  have hworld := hcalm.world_eq s.world
  have hends := hcalm.ends s.world
  rw [hw] at hworld
  unfold Memo.lowering
  rcases hrun : (g.walk aspect key).lower key.source s.world with ⟨o, w⟩
  rw [hrun] at hworld hends
  cases o with
  | ok lowered =>
    refine ⟨rfl, ?_, (fun h => nomatch h), ?_, fun h => absurd rfl (h _)⟩
    · exact congrArg (fun w : Machine σ => { w with next := w.next + 1 }) hworld
    · intro a ha
      obtain rfl := Outcome.ok.inj ha
      exact ⟨NameTable.claim_notMem _ _, NameTable.names_claim _ _⟩
  | fault e => exact ⟨rfl, hworld, (fun h => nomatch h), (fun a h => nomatch h), fun _ => rfl⟩
  | panic => exact ⟨rfl, hworld, (fun h => nomatch h), (fun a h => nomatch h), fun _ => rfl⟩
  | stalled => exact absurd rfl hends

/-- The engine lowers as the memo table does. -/
theorem Engine.lowerArtifact_eq (aspect : Aspect) (key : CacheKey) (hw : s.world = m.world)
    (hn : s.names = m.names) :
    g.lowerArtifact aspect key m =
      ((s.lowering g aspect key).1,
        (s.lowering g aspect key).2.world.withTables m.values m.shapes
          (s.lowering g aspect key).2.names) := by
  have hcalm := Walk.quiet_lower (w := g.walk aspect key) hg key.source
  have hrun := hcalm.eq_world m
  unfold Memo.lowering
  rw [hw, hn]
  rcases hworld : (g.walk aspect key).lower key.source m.world with ⟨o, w⟩
  rw [hworld] at hrun
  rw [g.lowerArtifact_eq_claim]
  change Action.bind ((g.walk aspect key).lower key.source) _ m = _
  unfold Action.bind
  rw [hrun]
  cases o <;> rfl

end

/-! ### Obtaining an entry -/

/-- A slot of the cache stands for an entry of the map. -/
inductive Served (c : Cache) (l : Label) : Outcome Nat → Outcome Entry → Prop where
  | ok {n : Nat} {e : Entry} : c.slotOf? l = some n → c.content? n = some e →
      Served c l (.ok n) (.ok e)
  | fault (e : Fault) : Served c l (.fault e) (.fault e)
  | panic : Served c l .panic .panic

section

variable {aspect : Aspect} {key : CacheKey} {lower : Action σ Artifact} {m : Machine σ}
  {slot : Nat} {cache : Cache} (hslot : (m.cache aspect).slotFor key = (slot, cache))
  (hidle : cache.isBusy slot = false)

include hslot hidle

/-- If the slot is filled, a use is counted and that is all. -/
theorem obtain_hit {e : Entry} (h : cache.content? slot = some e) :
    obtain aspect key lower m = (.ok slot, m.modifyCache aspect fun _ => cache.countUse slot) := by
  unfold obtain
  simp only [hslot, hidle, h, Bool.false_eq_true, if_false]

/-- If the slot is empty, it is busy while the artifact is lowered, and filled if that succeeds. -/
theorem obtain_miss (h : cache.content? slot = none) :
    obtain aspect key lower m =
      match lower (m.modifyCache aspect fun _ => cache.setBusy slot true) with
      | (.ok a, m) =>
        (.ok slot, m.modifyCache aspect fun c => (c.fill slot a).setBusy slot false)
      | (.fault e, m) =>
        (.fault e, m.modifyCache aspect fun c => (c.detach key slot).setBusy slot false)
      | (.panic, m) => (.panic, m.modifyCache aspect fun c => c.setBusy slot false)
      | (.stalled, m) => (.stalled, m) := by
  unfold obtain
  rw [hslot]
  dsimp only
  have hfree : ¬ cache.isBusy slot = true := by rw [hidle]; exact Bool.false_ne_true
  rw [if_neg hfree]
  generalize cache.content? slot = content at h
  subst h
  rfl

end

namespace Refines

variable {g : Engine σ} {m : Machine σ} {s : Memo σ}

/-- Changing one cache and its map after a lowering, during which the cache was `c`. -/
private theorem resume {aspect : Aspect} {s₁ s' : Memo σ} (h : Refines m s) {o : Outcome Artifact}
    (hlow : s.Lowers o s₁) {c : Cache} {f : Cache → Cache} (hworld : s'.world = s₁.world)
    (hnames : s'.names = s₁.names) (hother : ∀ a, a ≠ aspect → s'.table a = s₁.table a)
    (hshows : Shows (f c) (s'.table aspect) s₁.names.names) :
    Refines ((s₁.world.withTables (m.modifyCache aspect fun _ => c).values
      (m.modifyCache aspect fun _ => c).shapes s₁.names).modifyCache aspect f) s' := by
  have hcache (a : Aspect) : (s₁.world.withTables (m.modifyCache aspect fun _ => c).values
      (m.modifyCache aspect fun _ => c).shapes s₁.names).cache a =
      if a = aspect then c else m.cache a := by
    rw [← m.cache_modifyCache aspect a fun _ => c]
    cases a <;> rfl
  refine ⟨?_, ?_, fun a => ?_⟩
  · rw [hworld, Machine.world_modifyCache]
    exact hlow.world.symm
  · rw [hnames, Machine.names_modifyCache]
    rfl
  · rw [Machine.cache_modifyCache, hcache, hcache, if_pos rfl, Machine.names_modifyCache]
    split
    · next ha => subst ha; exact hshows
    · next ha =>
      rw [hother a ha, hlow.table]
      have hnames := h.names ▸ hlow.names_subset
      exact (h.cache a).mono hnames

/-- **Obtaining an entry.** -/
theorem obtain (hg : g.collaborators.Quiet) (h : Refines m s) (aspect : Aspect)
    (key : CacheKey) :
    Refines (g.obtainArtifact aspect key m).2 (s.obtain g aspect key).2 ∧
      Served ((g.obtainArtifact aspect key m).2.cache aspect) key.label
        (g.obtainArtifact aspect key m).1 (s.obtain g aspect key).1 := by
  rcases hslot : (m.cache aspect).slotFor key with ⟨slot, cache⟩
  have hshows := (h.cache aspect).slotFor key
  have hlabel := Cache.slotOf?_slotFor (m.cache aspect) key key.label
  rw [hslot] at hshows hlabel
  rw [if_pos rfl] at hlabel
  have hidle := hshows.idle slot
  have hcontent := hshows.content_eq hlabel
  unfold Engine.obtainArtifact
  cases ht : (s.table aspect).lookup key.label with
  | some e =>
    rw [ht] at hcontent
    rw [obtain_hit hslot hidle hcontent, Memo.obtain_of_some ht]
    dsimp only
    refine ⟨h.modify ?_ ?_ ?_ ?_, ?_⟩
    · exact Memo.world_enter s aspect _ _
    · exact Memo.names_enter s aspect _ _
    · intro a ha
      rw [Memo.table_enter, if_neg ha]
    · rw [Memo.table_enter, if_pos rfl]
      exact hshows.modifyEntry (f := fun e => { e with uses := e.uses + 1 }) hlabel ht rfl
    · rw [Machine.cache_modifyCache, if_pos rfl]
      refine Served.ok hlabel ?_
      unfold Cache.countUse
      rw [Cache.content?_modifyEntry, if_pos rfl, hcontent]
      rfl
  | none =>
    rw [ht] at hcontent
    have hlowers := Memo.lowers hg aspect key (s := s) (by rw [h.world]; rfl)
    rw [obtain_miss hslot hidle hcontent, Memo.obtain_of_none ht,
      Engine.lowerArtifact_eq hg aspect key (s := s)
        (h.world.trans (m.world_modifyCache aspect _).symm)
        (h.names.trans (m.names_modifyCache aspect _).symm)]
    rcases hres : s.lowering g aspect key with ⟨o, s'⟩
    rw [hres] at hlowers
    have htable := congrFun hlowers.table aspect
    dsimp only at hlowers htable
    cases o with
    | ok a =>
      dsimp only
      obtain ⟨hnew, hnames⟩ := hlowers.name a rfl
      rw [h.names] at hnew hnames
      have hfill := hshows.fill hlabel ht hnew
      refine ⟨h.resume hlowers (Memo.world_enter s' aspect _ _) (Memo.names_enter s' aspect _ _)
        (fun a ha => ?_) ?_, ?_⟩
      · rw [Memo.table_enter, if_neg ha]
      · rw [Memo.table_enter, if_pos rfl, htable, hnames]
        exact hfill
      · rw [Machine.cache_modifyCache, if_pos rfl]
        have hentry := hfill.content_eq (l := key.label) hlabel
        rw [AList.lookup_insert] at hentry
        cases aspect <;> exact Served.ok hlabel hentry
    | fault e =>
      dsimp only
      have hnames := (hlowers.names fun a ha => nomatch ha).trans h.names
      refine ⟨h.resume hlowers rfl rfl (fun _ _ => rfl) ?_, Served.fault e⟩
      rw [htable, hnames]
      exact hshows.detach hlabel ht
    | panic =>
      dsimp only
      have hnames := (hlowers.names fun a ha => nomatch ha).trans h.names
      refine ⟨h.resume hlowers rfl rfl (fun _ _ => rfl) ?_, Served.panic⟩
      rw [htable, hnames]
      exact hshows.leave hlabel
    | stalled => exact absurd rfl hlowers.runs

/-- Going on in another world. -/
private theorem withWorld (h : Refines m s) {w : Machine σ} (hw : w.world = w) :
    Refines (w.withTables m.values m.shapes m.names) { s with world := w } := by
  refine ⟨hw.symm, h.names, fun a => ?_⟩
  have := h.cache a
  cases a <;> exact this

/-- The entry of a slot that was obtained is the one of the map. -/
theorem entryOf_eq {aspect : Aspect} {n : Nat} {e : Entry}
    (h : (m.cache aspect).content? n = some e) : entryOf aspect n m = (.ok e, m) := by
  unfold entryOf
  rw [h]

/-- **Obtaining an entry point.** -/
theorem entryPoint (hg : g.collaborators.Quiet) (h : Refines m s) (key : CacheKey) :
    ((g.obtainArtifact .values key >>= g.obtainEntryPoint) m).1 = (s.entryPoint g key).1 ∧
      Refines ((g.obtainArtifact .values key >>= g.obtainEntryPoint) m).2
        (s.entryPoint g key).2 := by
  obtain ⟨hrefines, hserved⟩ := h.obtain hg .values key
  unfold Memo.entryPoint
  change (Action.bind _ _ m).1 = _ ∧ Refines (Action.bind _ _ m).2 _
  unfold Action.bind
  rcases hm : g.obtainArtifact .values key m with ⟨o, m'⟩
  rcases hs : s.obtain g .values key with ⟨o', s'⟩
  rw [hm, hs] at hrefines hserved
  dsimp only at hrefines hserved
  cases hserved with
  | fault e => exact ⟨rfl, hrefines⟩
  | panic => exact ⟨rfl, hrefines⟩
  | @ok n e hslot hcontent =>
    dsimp only
    have hlookup : s'.values.lookup key.label = some e :=
      ((hrefines.cache .values).content_eq hslot).symm.trans hcontent
    change (Action.bind _ _ m').1 = _ ∧ Refines (Action.bind _ _ m').2 _
    unfold Action.bind
    rw [entryOf_eq hcontent]
    dsimp only
    cases hp : e.entryPoint with
    | some p => exact ⟨rfl, hrefines⟩
    | none =>
      dsimp only
      have hcalm := hg.build e.artifact
      have hworld := hcalm.world_eq m'
      change (Action.bind _ _ m').1 = _ ∧ Refines (Action.bind _ _ m').2 _
      unfold Action.bind
      rw [hcalm.eq_world m', hrefines.world]
      rcases hb : g.collaborators.build e.artifact m'.world with ⟨o, w⟩
      rw [hb] at hworld
      have hnext := hrefines.withWorld hworld
      cases o with
      | fault f => exact ⟨rfl, hnext⟩
      | panic => exact ⟨rfl, hnext⟩
      | stalled => exact ⟨rfl, hnext⟩
      | ok p =>
        have hstored : Refines
            ((w.withTables m'.values m'.shapes m'.names).modifyCache .values fun c =>
              c.storeEntryPoint n p)
            (Memo.enter { s' with world := w } .values key.label
              { e with entryPoint := some p }) := by
          refine hnext.modify rfl rfl (fun a ha => ?_) ?_
          · exact (Memo.table_enter _ _ _ _ _).trans (if_neg ha)
          · exact (hnext.cache .values).modifyEntry
              (f := fun e => { e with entryPoint := some p }) hslot hlookup rfl
        exact ⟨rfl, hstored⟩

/-- **Obtaining an artifact.** -/
theorem artifact (hg : g.collaborators.Quiet) (h : Refines m s) (aspect : Aspect)
    (key : CacheKey) :
    ((do
      let slot ← g.obtainArtifact aspect key
      return (← entryOf aspect slot).artifact) m).1 =
        (s.obtain g aspect key).1.map (·.artifact) ∧
      Refines ((do
        let slot ← g.obtainArtifact aspect key
        return (← entryOf aspect slot).artifact) m).2 (s.obtain g aspect key).2 := by
  obtain ⟨hrefines, hserved⟩ := h.obtain hg aspect key
  change (Action.bind _ _ m).1 = _ ∧ Refines (Action.bind _ _ m).2 _
  unfold Action.bind
  rcases hm : g.obtainArtifact aspect key m with ⟨o, m'⟩
  rcases hs : s.obtain g aspect key with ⟨o', s'⟩
  rw [hm, hs] at hrefines hserved
  dsimp only at hrefines hserved
  cases hserved with
  | fault e => exact ⟨rfl, hrefines⟩
  | panic => exact ⟨rfl, hrefines⟩
  | @ok n e hslot hcontent =>
    change (Action.bind _ _ m').1 = _ ∧ Refines (Action.bind _ _ m').2 _
    unfold Action.bind
    rw [entryOf_eq hcontent]
    exact ⟨rfl, hrefines⟩

/-- **One request.** The engine gives the answer of the memo table, and still refines it. -/
theorem serve (hg : g.collaborators.Quiet) (h : Refines m s) (r : Request) :
    (g.serve r m).1 = (s.serve g r).1 ∧ Refines (g.serve r m).2 (s.serve g r).2 := by
  cases r with
  | lower aspect source target =>
    simp only [Engine.serve, Memo.serve, Engine.lower, Engine.forKey]
    cases source.key? target with
    | error e => exact ⟨rfl, h⟩
    | ok key =>
      obtain ⟨heq, hrefines⟩ := h.artifact hg aspect key
      let wrap (o : Outcome Artifact) : Answer :=
        .artifact (o.mapFault fun e => .lowering e key.source.text)
      exact ⟨congrArg wrap heq, hrefines⟩
  | jit source target =>
    simp only [Engine.serve, Memo.serve, Engine.jit, Engine.forKey]
    cases source.key? target with
    | error e => exact ⟨rfl, h⟩
    | ok key =>
      obtain ⟨heq, hrefines⟩ := h.entryPoint hg key
      let wrap (o : Outcome EntryPoint) : Answer :=
        .entryPoint (o.mapFault fun e => .lowering e key.source.text)
      exact ⟨congrArg wrap heq, hrefines⟩
  | clear =>
    refine ⟨rfl, h.world, h.names, fun a => ?_⟩
    have := (h.cache a).clear
    cases a <;> exact this
  | items aspect => exact ⟨congrArg Answer.items (h.cache aspect).items_eq, h⟩

/-- **A run of requests.** -/
theorem serveAll (hg : g.collaborators.Quiet) (h : Refines m s) (rs : List Request) :
    (TensorLowering.serveAll g.serve rs m).1 = (TensorLowering.serveAll (Memo.serve g) rs s).1 ∧
      Refines (TensorLowering.serveAll g.serve rs m).2
        (TensorLowering.serveAll (Memo.serve g) rs s).2 := by
  induction rs generalizing m s with
  | nil => exact ⟨rfl, h⟩
  | cons r rs ih =>
    obtain ⟨hanswer, hnext⟩ := h.serve hg r
    obtain ⟨hanswers, hend⟩ := ih hnext
    exact ⟨congrArg₂ List.cons hanswer hanswers, hend⟩

end Refines

/-! ### Entry points are built once -/

namespace Memo

variable {g : Engine σ} {s : Memo σ} {key : CacheKey} {l : Label} {e : Entry} {p : EntryPoint}

/-- The label has an entry with the entry point. -/
def Built (s : Memo σ) (l : Label) (p : EntryPoint) : Prop :=
  ∃ e, s.values.lookup l = some e ∧ e.entryPoint = some p

private theorem entryPoint_of_built (h : s.Built key.label p) :
    (s.entryPoint g key).1 = .ok p ∧ (s.entryPoint g key).2.world = s.world := by
  obtain ⟨e, he, hp⟩ := h
  unfold entryPoint
  rw [show s.obtain g .values key = _ from obtain_of_some he]
  dsimp only
  rw [hp]
  exact ⟨rfl, world_enter s .values _ _⟩

private theorem built_enter (h : s.Built l p) (a : Aspect) (l' : Label) {e : Entry}
    (he : l' = l → a = .values → e.entryPoint = some p) : (s.enter a l' e).Built l p := by
  cases a with
  | shapes => exact h
  | values =>
    by_cases hl : l' = l
    · subst hl
      exact ⟨e, AList.lookup_insert _, he rfl rfl⟩
    · obtain ⟨d, hd, hp⟩ := h
      exact ⟨d, (AList.lookup_insert_ne (Ne.symm hl)).trans hd, hp⟩

private theorem table_lowering (s : Memo σ) (g : Engine σ) (key : CacheKey) (aspect : Aspect) :
    (s.lowering g aspect key).2.table = s.table := by
  unfold lowering
  split <;> rfl

private theorem built_lowering (g : Engine σ) (key : CacheKey) (aspect : Aspect) (h : s.Built l p) :
    (s.lowering g aspect key).2.Built l p := by
  obtain ⟨e, he, hp⟩ := h
  exact ⟨e, (congrArg (·.lookup l) (congrFun (table_lowering s g key aspect) .values)).trans he, hp⟩

private theorem built_obtain (g : Engine σ) (key : CacheKey) (aspect : Aspect) (h : s.Built l p) :
    (s.obtain g aspect key).2.Built l p := by
  cases ht : (s.table aspect).lookup key.label with
  | some e =>
    rw [obtain_of_some ht]
    refine built_enter h aspect _ fun hl ha => ?_
    subst ha hl
    obtain ⟨d, hd, hp⟩ := h
    have : d = e := Option.some.inj (hd.symm.trans ht)
    exact this ▸ hp
  | none =>
    rw [obtain_of_none ht]
    have hlow := built_lowering g key aspect h
    have htable := congrFun (table_lowering s g key aspect) aspect
    rcases hres : s.lowering g aspect key with ⟨o, s'⟩
    rw [hres] at hlow htable
    cases o with
    | fault | panic | stalled => exact hlow
    | ok a =>
      refine built_enter hlow aspect _ fun hl ha => ?_
      subst ha hl
      obtain ⟨d, hd, -⟩ := h
      rw [show s.values.lookup key.label = none from ht] at hd
      exact nomatch hd

private theorem obtain_lookup (s : Memo σ) (g : Engine σ) (key : CacheKey) (aspect : Aspect)
    (e : Entry) (h : (s.obtain g aspect key).1 = .ok e) :
    ((s.obtain g aspect key).2.table aspect).lookup key.label = some e := by
  cases ht : (s.table aspect).lookup key.label with
  | some d =>
    rw [obtain_of_some ht] at h ⊢
    obtain rfl := Outcome.ok.inj h
    rw [table_enter, if_pos rfl]
    exact AList.lookup_insert _
  | none =>
    rw [obtain_of_none ht] at h ⊢
    rcases hres : s.lowering g aspect key with ⟨o, s'⟩
    rw [hres] at h
    cases o with
    | fault | panic | stalled => exact nomatch h
    | ok a =>
      obtain rfl := Outcome.ok.inj h
      dsimp only
      rw [table_enter, if_pos rfl]
      exact AList.lookup_insert _

/-- An entry point that is there stays, and one that is answered is there. -/
private theorem built_entryPoint :
    (s.Built l p → (s.entryPoint g key).2.Built l p) ∧
      ((s.entryPoint g key).1 = .ok p → (s.entryPoint g key).2.Built key.label p) := by
  have hkept : s.Built l p → _ := built_obtain g key .values
  have hserved := obtain_lookup s g key .values
  unfold entryPoint
  rcases hres : s.obtain g .values key with ⟨o, s'⟩
  rw [hres] at hkept hserved
  cases o with
  | fault | panic | stalled => exact ⟨hkept, fun h => nomatch h⟩
  | ok e =>
    have he : s'.values.lookup key.label = some e := hserved e rfl
    dsimp only at hkept ⊢
    cases hp : e.entryPoint with
    | some q =>
      refine ⟨hkept, fun h => ⟨e, he, ?_⟩⟩
      rw [hp, Outcome.ok.inj h]
    | none =>
      dsimp only
      rcases g.collaborators.build e.artifact s'.world with ⟨o, w⟩
      cases o with
      | fault | panic | stalled => exact ⟨hkept, fun h => nomatch h⟩
      | ok q =>
        refine ⟨fun h => built_enter (hkept h) .values _ fun hl _ => ?_, fun h => ?_⟩
        · obtain ⟨d, hd, hdp⟩ := hkept h
          subst hl
          rw [he] at hd
          obtain rfl := Option.some.inj hd
          rw [hp] at hdp
          exact nomatch hdp
        · exact ⟨_, AList.lookup_insert _, congrArg some (Outcome.ok.inj h)⟩

private theorem entryPoint_eq_ok_of_serve {target : Option Target}
    (h : (s.serve g (.jit (.key key) target)).1 = .entryPoint (.ok p)) :
    (s.entryPoint g key).1 = .ok p := by
  have hmap : ((s.entryPoint g key).1.mapFault fun e => .lowering e key.source.text) = .ok p :=
    Answer.entryPoint.inj h
  cases ho : (s.entryPoint g key).1 with
  | ok q => rw [ho] at hmap; exact congrArg _ (Outcome.ok.inj hmap)
  | fault | panic | stalled => rw [ho] at hmap; exact nomatch hmap

/-- Only clearing takes an entry point away. -/
private theorem built_serve {r : Request} (hr : r ≠ .clear) (h : s.Built l p) :
    (s.serve g r).2.Built l p := by
  cases r with
  | lower aspect source target =>
    simp only [serve]
    cases source.key? target with
    | error e => exact h
    | ok key => exact built_obtain g key aspect h
  | jit source target =>
    simp only [serve]
    cases source.key? target with
    | error e => exact h
    | ok key => exact built_entryPoint.1 h
  | clear => exact absurd rfl hr
  | items aspect => exact h

private theorem built_serveAll {rs : List Request} (hrs : .clear ∉ rs) (h : s.Built l p) :
    (serveAll (Memo.serve g) rs s).2.Built l p := by
  induction rs generalizing s with
  | nil => exact h
  | cons r rs ih =>
    rw [List.mem_cons, not_or] at hrs
    exact ih hrs.2 (built_serve (Ne.symm hrs.1) h)

end Memo

/-! ### The engine -/

/-- **An engine refines a memo table.** To any sequence of requests on a new engine, whatever
becomes of the lowerings and builds on the way, the answers are those of a memo table, and the
caches show the maps of the memo table in the end. If then an entry point is answered for a key, it
is the one that is answered for this key after any further requests but clearings, and it is not
built again. -/
theorem Engine.serveAll_eq (g : Engine σ) (hg : g.collaborators.Quiet) (own : σ) (next : Nat)
    (rs : List Request) :
    (serveAll g.serve rs (.initial own next)).1 =
        (serveAll (Memo.serve g) rs (Memo.start own next)).1 ∧
      Refines (serveAll g.serve rs (.initial own next)).2
        (serveAll (Memo.serve g) rs (Memo.start own next)).2 ∧
      ∀ k k' target target' p, k.label = k'.label →
        (g.jit (.key k) target (serveAll g.serve rs (.initial own next)).2).1 = .ok p →
        ∀ rs', Request.clear ∉ rs' →
          let m := (serveAll g.serve (rs ++ .jit (.key k) target :: rs') (.initial own next)).2
          let again := g.jit (.key k') target' m
          again.1 = .ok p ∧ again.2.world = m.world := by
  obtain ⟨hanswers, hrefines⟩ := (Refines.start own next).serveAll hg rs
  refine ⟨hanswers, hrefines, ?_⟩
  intro k k' target target' p hk hp rs' hrs'
  dsimp only
  rw [serveAll_append]
  obtain ⟨hjit, hnext⟩ := hrefines.serve hg (.jit (.key k) target)
  -- the answer tells that the memo table has the entry point, and keeps it from here on
  have hserved := Memo.entryPoint_eq_ok_of_serve (hjit.symm.trans (congrArg Answer.entryPoint hp))
  have hbuilt := (Memo.built_entryPoint (l := k.label)).2 hserved
  have hstays := Memo.built_serveAll (g := g) hrs' hbuilt
  obtain ⟨-, hend⟩ := hnext.serveAll hg rs'
  obtain ⟨hagain, hlast⟩ := hend.serve hg (.jit (.key k') target')
  rw [hk] at hstays
  obtain ⟨hok, hworld⟩ := Memo.entryPoint_of_built (g := g) hstays
  refine ⟨?_, ?_⟩
  · exact (Answer.entryPoint.inj hagain).trans (congrArg (Outcome.mapFault _) hok)
  · exact hlast.world.symm.trans (hworld.trans hend.world)

/-- A run on a concrete engine: a function is lowered, made callable, listed, forgotten and lowered
again. -/
theorem Engine.serveAll_pointwise :
    let g : Engine Unit := ⟨.standard, .pointwise⟩
    let ty : Ty := .tensor ⟨[.imm 4 .int64], .float 32⟩
    let f : Function := .ofBody [⟨0, "x", ty⟩] (.call 1 "relu" .empty [.var 0 ⟨0, "x", ty⟩] ty)
    let t : Target := ⟨.llvm, .empty⟩
    let rs : List Request := [.lower .values (.function f) t, .jit (.function f) t, .items .values,
      .clear, .lower .shapes (.function f) t]
    Collaborators.pointwise.Quiet ∧
      (serveAll g.serve rs (.initial () 0)).1 =
        (serveAll (Memo.serve g) rs (Memo.start () 0)).1 ∧
      Refines (serveAll g.serve rs (.initial () 0)).2
        (serveAll (Memo.serve g) rs (Memo.start () 0)).2 := by
  intro g ty f t rs
  have h := Engine.serveAll_eq g Collaborators.quiet_pointwise () 0 rs
  exact ⟨Collaborators.quiet_pointwise, h.1, h.2.1⟩

end TensorLowering
