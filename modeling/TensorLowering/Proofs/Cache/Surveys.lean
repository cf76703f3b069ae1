import TensorLowering.Proofs.Cache.SlotLocks
import Mathlib.Data.List.Perm.Subperm

/-!
# Listing a cache while requests are served

To list the entries of a cache takes many steps, and requests are served in between: a survey takes
the lock of the table, so that nobody writes into it, and goes through the slots in some order. A
slot whose lock is taken is skipped; of one that is free the lock is taken, the entry is copied, and
the lock is left. Without others in between this leads to `Cache.items` (`Survey.leads_items`).

A slot is meant to be skipped while a function is lowered for it. But whoever is served from a slot
that is filled has its lock as well, and so has a request that has just filled it, and another
survey that copies the entry. `Surveyed.Run.survey_exact` says of every run what a survey returns:
entries that it has seen in the slots of their keys, and of those that were there before it began
exactly the ones that it has not come to at such a moment (`Surveyed.PassedOver`).

What is proved of one step is proved of the survey by itself (`Survey.Step`). Through a run go the
locks, the table and the labels of a survey (`Surveyed.Consistent`), and where it stands to an entry
that was there before (`Survey.Standing`).
-/

namespace TensorLowering

/-- Taking the lock of a slot and leaving it. -/
private theorem Cache.setBusy_setBusy {c : Cache} {n : Nat} (hbusy : c.isBusy n = false) :
    (c.setBusy n true).setBusy n false = c := by
  refine congrArg (Cache.mk c.mapped) (Array.ext_getElem? fun m => ?_)
  rw [setBusy, Array.getElem?_modify, Array.getElem?_modify]
  split
  · next hm =>
    subst hm
    unfold isBusy at hbusy
    cases hslot : c.slots[n]? with
    | none => rfl
    | some slot =>
      rw [hslot] at hbusy
      exact congrArg (fun busy => some (Slot.mk busy slot.entry)) hbusy.symm
  · rfl

/-- An entry was made for a label in a slot. -/
structure Cache.FilledFor (c : Cache) (l : Label) (n : Nat) (a : Artifact) : Prop where
  slot : c.slotOf? l = some n
  content : (c.content? n).map (·.artifact) = some a

/-! ### One survey -/

/-- Where a survey stands. -/
inductive Survey where
  /-- It has not taken the lock of the table. -/
  | idle
  /-- Some slots are left to be looked at, and some entries were found. -/
  | reading (left : List (CacheKey × Nat)) (found : List (CacheKey × Entry))
  /-- It has the lock of a slot and is about to copy the entry. -/
  | peeking (m : CacheKey × Nat) (left : List (CacheKey × Nat)) (found : List (CacheKey × Entry))
  /-- It has returned. -/
  | done (found : List (CacheKey × Entry))

namespace Survey

/-- The slots that it has still to look at. -/
def pending : Survey → List (CacheKey × Nat)
  | .reading left _ => left
  | .peeking m left _ => m :: left
  | .idle | .done _ => []

/-- The entries that it has found. -/
def found : Survey → List (CacheKey × Entry)
  | .reading _ found | .peeking _ _ found | .done found => found
  | .idle => []

/-- The slot whose lock it has. -/
def peeks? : Survey → Option Nat
  | .peeking m _ _ => some m.2
  | .idle | .reading .. | .done _ => none

/-- Whether it has the lock of the table. -/
def Reads : Survey → Prop
  | .reading .. | .peeking .. => True
  | .idle | .done _ => False

/-- What is copied from a slot. -/
def copied (c : Cache) (m : CacheKey × Nat) : List (CacheKey × Entry) :=
  ((c.content? m.2).map fun e => (m.1, e)).toList

/-- **One step of a survey**, with the cache before and after it. -/
inductive Step : Cache → Survey → Cache → Survey → Prop where
  | enter (c : Cache) (left : List (CacheKey × Nat)) : left.Perm c.mapped →
      Step c .idle c (.reading left [])
  | skip (c : Cache) (m : CacheKey × Nat) (left : List (CacheKey × Nat))
      (found : List (CacheKey × Entry)) : c.isBusy m.2 = true →
      Step c (.reading (m :: left) found) c (.reading left found)
  | peek (c : Cache) (m : CacheKey × Nat) (left : List (CacheKey × Nat))
      (found : List (CacheKey × Entry)) : c.isBusy m.2 = false →
      Step c (.reading (m :: left) found) (c.setBusy m.2 true) (.peeking m left found)
  | copy (c : Cache) (m : CacheKey × Nat) (left : List (CacheKey × Nat))
      (found : List (CacheKey × Entry)) :
      Step c (.peeking m left found) (c.setBusy m.2 false) (.reading left (found ++ copied c m))
  | close (c : Cache) (found : List (CacheKey × Entry)) :
      Step c (.reading [] found) c
        (.done (found.mergeSort fun a b => a.2.artifact.name ≤ b.2.artifact.name))

/-- The labels of what it has found and has still to look at. -/
def labels (p : Survey) : List Label :=
  p.found.map (·.1.label) ++ p.pending.map (·.1.label)

/-- The survey skips a slot from one moment to the next. -/
def Skips (p p' : Survey) (n : Nat) : Prop :=
  ∃ k left found, p = .reading ((k, n) :: left) found ∧ p' = .reading left found

private theorem Skips.peeks?_eq {p p' : Survey} {n : Nat} (h : p.Skips p' n) : p.peeks? = none := by
  obtain ⟨_, _, _, rfl, -⟩ := h
  rfl

private theorem not_skips_self (p : Survey) (n : Nat) : ¬p.Skips p n := by
  rintro ⟨k, left, found, rfl, hp⟩
  exact absurd (Survey.reading.inj hp).1 (List.cons_ne_self _ _)

private theorem Skips.slot_eq {m : CacheKey × Nat} {left : List (CacheKey × Nat)}
    {found : List (CacheKey × Entry)} {p' : Survey} {n : Nat}
    (h : Skips (.reading (m :: left) found) p' n) : m.2 = n := by
  obtain ⟨k, left', found', hp, -⟩ := h
  obtain ⟨rfl, -⟩ := List.cons.inj (Survey.reading.inj hp).1
  rfl

namespace Step

variable {c c' : Cache} {p p' : Survey} {n : Nat}

private theorem mapped_eq (h : Step c p c' p') : c'.mapped = c.mapped := by cases h <;> rfl

private theorem content?_eq (h : Step c p c' p') (n : Nat) : c'.content? n = c.content? n := by
  cases h with
  | enter | skip | close => rfl
  | peek | copy => exact Cache.content?_setBusy _ _ _ _

private theorem ne_idle (h : Step c p c' p') : p' ≠ .idle := by
  cases h <;> exact fun h => by cases h

/-- It looks only at slots of the table. -/
private theorem pending_subset (h : Step c p c' p') (hp : p.pending ⊆ c.mapped) :
    p'.pending ⊆ c.mapped := by
  cases h with
  | enter left hperm => exact hperm.subset
  | skip m | copy m => exact List.Subset.trans (List.subset_cons_self m _) hp
  | peek => exact hp
  | close => exact List.nil_subset _

/-- Once it has begun, it comes to no label that it has not known of. -/
private theorem labels_subperm (h : Step c p c' p') (hp : p ≠ .idle) :
    p'.labels.Subperm p.labels := by
  cases h with
  | enter => exact absurd rfl hp
  | skip m left found =>
    exact ((List.sublist_cons_self m left).map _).append_left _ |>.subperm
  | peek => exact List.Subperm.refl _
  | copy m left found =>
    rw [labels, labels, Survey.found, Survey.found, pending, pending, List.map_append,
      List.map_cons, List.append_assoc]
    refine (List.Sublist.append_left ?_ _).subperm
    rw [copied]
    cases c.content? m.2 with
    | none => exact List.sublist_cons_self _ _
    | some e => exact List.Sublist.refl _
  | close found =>
    refine ((List.mergeSort_perm found _).map _).append_right _ |>.subperm

/-- It comes to no label twice. -/
private theorem nodup_labels (h : Step c p c' p') (hc : c.Proper) (hp : p.labels.Nodup) :
    p'.labels.Nodup := by
  by_cases hidle : p = .idle
  · subst hidle
    cases h with
    | enter left hperm => exact (hperm.map _).nodup_iff.mpr hc.labels
  · obtain ⟨ls, hperm, hsub⟩ := h.labels_subperm hidle
    exact hperm.nodup_iff.mp (hp.sublist hsub)

/-- What is found has been seen in its slot. -/
private theorem mem_found (h : Step c p c' p') {x : CacheKey × Entry} (hx : x ∈ p'.found) :
    x ∈ p.found ∨ ∃ m, m.1 = x.1 ∧ m ∈ p.pending ∧ p.peeks? = some m.2 ∧
      c.content? m.2 = some x.2 := by
  cases h with
  | enter => cases hx
  | skip | peek => exact Or.inl hx
  | copy m left found =>
    refine (List.mem_append.mp hx).imp_right fun hx => ?_
    obtain ⟨e, he, rfl⟩ := Option.map_eq_some_iff.mp (Option.mem_toList.mp hx)
    exact ⟨m, rfl, List.mem_cons_self, rfl, he⟩
  | close found => exact Or.inl (List.mem_mergeSort.mp hx)

/-- It takes a lock that is free, or leaves the one that it has. -/
theorem locking {survey : Nat → Survey} {i : Nat} (h : Step c (survey i) c' p')
    (hmade : ∀ m ∈ (survey i).pending, m.2 < c.slots.size) :
    Locking c.isBusy c'.isBusy (peeks? ∘ survey) (peeks? ∘ Function.update survey i p') := by
  rw [Function.comp_update]
  generalize hi : survey i = p at h hmade
  have hpeeks : (peeks? ∘ survey) i = p.peeks? := congrArg peeks? hi
  cases h with
  | enter | skip | close => exact .keep rfl (Function.update_eq_self_iff.mpr hpeeks.symm)
  | peek m left found hm =>
    exact .lock i m.2 hpeeks hm (Cache.isBusy_setBusy_eq (hmade m List.mem_cons_self) true) rfl
  | copy m left found =>
    exact .unlock i m.2 hpeeks (Cache.isBusy_setBusy_eq (hmade m List.mem_cons_self) false) rfl

private theorem sound {key : Nat → CacheKey} {s : System} (h : Step s.cache p c' p')
    (hs : Sound key s) (hp : p.pending ⊆ s.cache.mapped)
    (hpeeks : ∀ n, p.peeks? = some n → ∀ r, s.holds r ≠ some n) : Sound key (s.withCache c') := by
  cases h with
  | enter | skip | close => exact hs
  | peek m => exact hs.setBusy (hs.proper.made m (hp List.mem_cons_self)) true fun hb => by cases hb
  | copy m =>
    exact hs.setBusy (hs.proper.made m (hp List.mem_cons_self)) false fun _ => hpeeks m.2 rfl

end Step

/-- What is skipped is held by somebody. -/
private theorem Skips.busy {c c' : Cache} {p p' : Survey} {n : Nat} (h : p.Skips p' n)
    (hstep : p' = p ∨ Step c p c' p') : c.isBusy n = true := by
  obtain rfl | hstep := hstep
  · exact absurd h (not_skips_self p' n)
  · obtain ⟨k, left, found, rfl, rfl⟩ := h
    cases hstep with
    | skip _ _ _ hbusy => exact hbusy

/-! ### A survey without others in between -/

/-- Any number of steps of a survey, one after the other. -/
abbrev Path (c : Cache) (p : Survey) (c' : Cache) (p' : Survey) : Prop :=
  Relation.ReflTransGen (fun x y : Cache × Survey => Step x.1 x.2 y.1 y.2) (c, p) (c', p')

/-- After one slot the cache is as it was, and what the slot shows was found. -/
private theorem Path.slot (c : Cache) (m : CacheKey × Nat) (left : List (CacheKey × Nat))
    (found : List (CacheKey × Entry)) :
    Path c (.reading (m :: left) found) c (.reading left (found ++ (c.shown? m).toList)) := by
  cases hbusy : c.isBusy m.2 with
  | true =>
    rw [Cache.shown?, if_pos hbusy, Option.toList_none, List.append_nil]
    exact .single (.skip c m left found hbusy)
  | false =>
    have hpeek : Path c (.reading (m :: left) found) (c.setBusy m.2 true) (.peeking m left found) :=
      .single (.peek c m left found hbusy)
    have hcopy : Path c (.reading (m :: left) found) ((c.setBusy m.2 true).setBusy m.2 false)
        (.reading left (found ++ copied (c.setBusy m.2 true) m)) :=
      hpeek.tail (.copy (c.setBusy m.2 true) m left found)
    have hcopied : copied (c.setBusy m.2 true) m = (c.shown? m).toList := by
      rw [copied, Cache.content?_setBusy, Cache.shown?, hbusy]
      rfl
    rwa [hcopied, Cache.setBusy_setBusy hbusy] at hcopy

private theorem Path.slots (c : Cache) (left : List (CacheKey × Nat))
    (found : List (CacheKey × Entry)) :
    Path c (.reading left found) c (.reading [] (found ++ left.filterMap c.shown?)) := by
  induction left generalizing found with
  | nil => rw [List.filterMap_nil, List.append_nil]
  | cons m left ih =>
    have hrest := ih (found ++ (c.shown? m).toList)
    have hfound : (c.shown? m).toList ++ left.filterMap c.shown? =
        (m :: left).filterMap c.shown? := by
      rw [List.filterMap_cons]
      cases c.shown? m <;> rfl
    rw [List.append_assoc, hfound] at hrest
    exact (Path.slot c m left found).trans hrest

/-- **A survey in one go** returns what `Cache.items` does, and leaves the cache as it was. -/
theorem leads_items (c : Cache) : Path c .idle c (.done c.items) := by
  have hentered : Path c .idle c (.reading c.mapped []) :=
    .single (.enter c c.mapped (List.Perm.refl _))
  exact (hentered.trans (Path.slots c c.mapped [])).tail (.close c _)

/-! ### An entry that was there before -/

/-- Where a survey stands to an entry that was made for a label before it began, if it is known
whether it has skipped the slot. -/
inductive Standing (p : Survey) (l : Label) (a : Artifact) (skipped : Prop) : Prop where
  | ahead : p = .idle → ¬skipped → Standing p l a skipped
  | awaited : l ∈ p.pending.map (·.1.label) → ¬skipped → Standing p l a skipped
  | listed (x : CacheKey × Entry) : x ∈ p.found → x.1.label = l → x.2.artifact = a → ¬skipped →
      Standing p l a skipped
  | missed : p ≠ .idle → l ∉ p.labels → skipped → Standing p l a skipped

end Survey

/-- The slots of a table and its labels belong together. -/
private theorem Cache.Proper.slot_eq_iff {c : Cache} (h : c.Proper) {l : Label} {n : Nat}
    (hn : c.slotOf? l = some n) {m : CacheKey × Nat} (hm : m ∈ c.mapped) :
    m.2 = n ↔ m.1.label = l := by
  have hslot := h.slotOf?_of_mem hm
  constructor
  · rintro rfl
    exact h.label_inj hslot hn
  · rintro rfl
    exact Option.some.inj (hslot.symm.trans hn)

namespace Survey

variable {c c' : Cache} {p p' : Survey} {l : Label} {n : Nat} {a : Artifact}
  {skipped skipped' : Prop}

/-- **One step.** A survey that has not skipped the slot of an entry has still to come to it, or has
found it. -/
theorem Standing.step (h : p.Standing l a skipped) (hstep : Step c p c' p') (hc : c.Proper)
    (hfilled : c.FilledFor l n a) (hpending : p.pending ⊆ c.mapped) (honce : p.labels.Nodup)
    (hskipped : skipped' ↔ p.Skips p' n ∨ skipped) : p'.Standing l a skipped' := by
  have hkept (hskips : ¬p.Skips p' n) (hnot : ¬skipped) : ¬skipped' := by
    rw [hskipped]
    exact not_or_intro hskips hnot
  cases h with
  | missed hidle hl hpassed =>
    have hl' : l ∉ p'.labels := fun hmem => hl ((hstep.labels_subperm hidle).subset hmem)
    exact .missed hstep.ne_idle hl' (hskipped.mpr (Or.inr hpassed))
  | ahead hidle hnot =>
    subst hidle
    cases hstep with
    | enter left hperm =>
      obtain ⟨k, hk, rfl⟩ := Cache.exists_of_slotOf? hfilled.slot
      exact .awaited (List.mem_map_of_mem (hperm.mem_iff.mpr hk))
        (hkept (fun ⟨_, _, _, hp, _⟩ => by cases hp) hnot)
  | awaited hl hnot =>
    cases hstep with
    | enter | close => cases hl
    | skip m left found =>
      have hslot := hc.slot_eq_iff hfilled.slot (hpending List.mem_cons_self)
      by_cases hm : m.1.label = l
      · -- it skips the slot, and comes to no other one for this label
        subst hm
        have hnew := (List.nodup_cons.mp (List.nodup_middle.mp honce)).1
        exact .missed (fun hp => by cases hp) hnew
          (hskipped.mpr (Or.inl ⟨m.1, left, found, by rw [← hslot.mpr rfl], rfl⟩))
      · exact .awaited ((List.mem_cons.mp hl).resolve_left (Ne.symm hm))
          (hkept (fun hskips => hm (hslot.mp hskips.slot_eq)) hnot)
    | peek m left found =>
      exact .awaited hl (hkept (fun ⟨_, _, _, _, hp⟩ => by cases hp) hnot)
    | copy m left found =>
      have hnot' := hkept (fun ⟨_, _, _, hp, _⟩ => by cases hp) hnot
      obtain rfl | hl := List.mem_cons.mp hl
      · -- it has come to the slot, which is filled
        obtain rfl := (hc.slot_eq_iff hfilled.slot (hpending List.mem_cons_self)).mpr rfl
        obtain ⟨e, he, ha⟩ := Option.map_eq_some_iff.mp hfilled.content
        refine .listed (m.1, e) (List.mem_append_right _ ?_) rfl ha hnot'
        rw [copied, he]
        exact List.mem_singleton_self _
      · exact .awaited hl hnot'
  | listed x hx hl ha hnot =>
    cases hstep with
    | enter => cases hx
    | skip m left found =>
      refine .listed x hx hl ha (hkept (fun hskips => ?_) hnot)
      -- it has found the label, and does not come to it again
      have hm := (hc.slot_eq_iff hfilled.slot (hpending List.mem_cons_self)).mp hskips.slot_eq
      have hnew := (List.nodup_cons.mp (List.nodup_middle.mp honce)).1
      exact hnew (List.mem_append_left _ (List.mem_map.mpr ⟨x, hx, hl.trans hm.symm⟩))
    | peek m left found =>
      exact .listed x hx hl ha (hkept (fun ⟨_, _, _, _, hp⟩ => by cases hp) hnot)
    | copy m left found =>
      exact .listed x (List.mem_append_left _ hx) hl ha
        (hkept (fun ⟨_, _, _, hp, _⟩ => by cases hp) hnot)
    | close found =>
      exact .listed x (List.mem_mergeSort.mpr hx) hl ha
        (hkept (fun ⟨_, _, _, _, hp⟩ => by cases hp) hnot)

end Survey

/-! ### Surveys and requests -/

/-- A cache with the requests on it and those who list its entries. -/
structure Surveyed where
  system : System
  survey : Nat → Survey

namespace Surveyed

/-- Nothing was requested. -/
def start : Surveyed := ⟨.start, fun _ => .idle⟩

/-- Let a survey go on. -/
def goto (t : Surveyed) (i : Nat) (c : Cache) (p : Survey) : Surveyed :=
  ⟨t.system.withCache c, Function.update t.survey i p⟩

/-- **One atomic step**, of a request, of a clearing or of a survey. While a survey has the lock of
the table, nobody writes into the table. -/
inductive Step (key : Nat → CacheKey) : Surveyed → Surveyed → Prop where
  | request (t : Surveyed) (s : System) : System.Step key t.system s →
      (t.system.Rewrites s → ∀ i, ¬(t.survey i).Reads) → Step key t { t with system := s }
  | survey (t : Surveyed) (i : Nat) (c : Cache) (p : Survey) :
      Survey.Step t.system.cache (t.survey i) c p → Step key t (t.goto i c p)

/-- **A run**: what was reached in some order of steps, and all that was reached before, last
first. -/
inductive Run (key : Nat → CacheKey) : Surveyed → List Surveyed → Prop where
  | start : Run key start []
  | step {t t' : Surveyed} {past : List Surveyed} : Run key t past → Step key t t' →
      Run key t' (t :: past)

/-- Who has the lock of which slot, among the requests and the surveys. -/
def holds (t : Surveyed) : Nat ⊕ Nat → Option Nat :=
  Sum.elim t.system.holds (Survey.peeks? ∘ t.survey)

/-- The invariant of the steps. -/
structure Consistent (key : Nat → CacheKey) (t : Surveyed) : Prop where
  sound : Sound key t.system
  barren : t.system.Barren
  guarded : Guarded t.system.cache.isBusy t.holds
  pending : ∀ i, (t.survey i).pending ⊆ t.system.cache.mapped
  once : ∀ i, (t.survey i).labels.Nodup

variable {key : Nat → CacheKey} {t t' u : Surveyed} {past : List Surveyed} {i n : Nat} {l : Label}
  {a : Artifact}

private theorem survey_goto (t : Surveyed) (i j : Nat) (c : Cache) (p : Survey) :
    (t.goto i c p).survey j = if j = i then p else t.survey j :=
  Function.update_apply _ _ _ _

/-- What a step does to one of the surveys. -/
theorem Step.turn (h : Step key t t') (i : Nat) : t'.survey i = t.survey i ∨
    Survey.Step t.system.cache (t.survey i) t'.system.cache (t'.survey i) := by
  cases h with
  | request => exact Or.inl rfl
  | survey j c p hstep =>
    rw [survey_goto]
    split
    · next hij => subst hij; exact Or.inr hstep
    · exact Or.inl rfl

private theorem consistent_start : Consistent key start := by
  refine ⟨Sound.start key, System.Barren.start, ⟨fun n => ?_, fun x y n hx => ?_⟩,
    fun i => List.nil_subset _, fun i => List.nodup_nil⟩
  · refine iff_of_false Bool.false_ne_true ?_
    rintro ⟨x | x, hx⟩ <;> cases hx
  · cases x <;> cases hx

/-- **One step.** -/
theorem Consistent.step (h : Consistent key t) (hstep : Step key t t') : Consistent key t' := by
  have honce (i : Nat) : (t'.survey i).labels.Nodup := by
    obtain heq | hturn := hstep.turn i
    · rw [heq]
      exact h.once i
    · exact hturn.nodup_labels h.sound.proper (h.once i)
  cases hstep with
  | request s hrequest hfree =>
    refine ⟨h.sound.step hrequest, h.barren.step h.sound hrequest,
      h.guarded.step ((hrequest.locking h.sound).inl _), fun i => ?_, honce⟩
    cases hi : t.survey i with
    | idle | done => exact List.nil_subset _
    | reading | peeking =>
      -- as long as it reads, the table stays as it is
      have hsame := hrequest.mapped_eq fun hrewrites => hfree hrewrites i (by rw [hi]; trivial)
      change _ ⊆ s.cache.mapped
      rw [hsame, ← hi]
      exact h.pending i
  | survey i c p hturn =>
    have hpeeks (n : Nat) (hn : (t.survey i).peeks? = some n) (r : Nat) :
        t.system.holds r ≠ some n := fun hr => by
      cases h.guarded.owner (.inl r) (.inr i) n hr hn
    have hlocking := hturn.locking fun m hm => h.sound.proper.made m (h.pending i hm)
    refine ⟨hturn.sound h.sound (h.pending i) hpeeks, fun r n hr => ?_,
      h.guarded.step (hlocking.inr _), fun j => ?_, honce⟩
    · exact (hturn.content?_eq n).trans (h.barren r n hr)
    · change _ ⊆ c.mapped
      rw [hturn.mapped_eq, survey_goto]
      split
      · exact hturn.pending_subset (h.pending i)
      · exact h.pending j

private theorem Run.consistent (h : Run key t past) : t.Consistent key := by
  induction h with
  | start => exact consistent_start
  | step _ hstep ih => exact ih.step hstep

/-! ### What a survey has seen -/

/-- **Nothing is listed that was not filled.** What a survey has found was in the slot of its key
when the survey had the lock of the slot. -/
theorem Run.seen_of_mem_found (h : Run key t past) {x : CacheKey × Entry}
    (hx : x ∈ (t.survey i).found) :
    ∃ u ∈ past, ∃ n, (u.survey i).peeks? = some n ∧ u.system.cache.slotOf? x.1.label = some n ∧
      u.system.cache.content? n = some x.2 := by
  induction h with
  | start => cases hx
  | @step t t' past hrun hstep ih =>
    have hcases : x ∈ (t.survey i).found ∨ ∃ m, m.1 = x.1 ∧ m ∈ (t.survey i).pending ∧
        (t.survey i).peeks? = some m.2 ∧ t.system.cache.content? m.2 = some x.2 := by
      obtain heq | hturn := hstep.turn i
      · exact Or.inl (heq ▸ hx)
      · exact hturn.mem_found hx
    obtain hx | ⟨m, hm, hpending, hpeeks, hcontent⟩ := hcases
    · obtain ⟨u, hu, hseen⟩ := ih hx
      exact ⟨u, List.mem_cons_of_mem t hu, hseen⟩
    · refine ⟨t, List.mem_cons_self, m.2, hpeeks, ?_, hcontent⟩
      rw [← hm]
      exact hrun.consistent.sound.proper.slotOf?_of_mem (hrun.consistent.pending i hpending)

/-! ### What a survey misses -/

/-- At this step a survey skips a slot that somebody holds who does not lower a function for it: a
request that is served from the slot or has just filled it, or another survey. -/
structure PassesOver (t t' : Surveyed) (i n : Nat) : Prop where
  skips : (t.survey i).Skips (t'.survey i) n
  held : (∃ r, (t.system.flight r).phase = .testing n ∨
    ∃ a, (t.system.flight r).phase = .leaving n (.ok a)) ∨
    ∃ j, j ≠ i ∧ (t.survey j).peeks? = some n

/-- At some step of a run, whose states are given last first, a survey skips a slot that somebody
holds who does not lower a function for it. -/
def PassedOver (i n : Nat) : List Surveyed → Prop
  | t' :: t :: past => t.PassesOver t' i n ∨ PassedOver i n (t :: past)
  | [_] | [] => False

/-- A slot that is skipped is held; and by nobody who lowers a function for it, if it is filled. -/
private theorem Consistent.passesOver_iff (h : Consistent key t) (hstep : Step key t t')
    (hfilled : t.system.cache.content? n ≠ none) :
    t.PassesOver t' i n ↔ (t.survey i).Skips (t'.survey i) n := by
  refine ⟨fun hpasses => hpasses.skips, fun hskips => ⟨hskips, ?_⟩⟩
  obtain ⟨r | j, hholds⟩ := (h.guarded.busy_iff n).mp (hskips.busy (hstep.turn i))
  · exact Or.inl ⟨r, h.barren.serves_of_holds hholds hfilled⟩
  · refine Or.inr ⟨j, ?_, hholds⟩
    rintro rfl
    cases hskips.peeks?_eq.symm.trans hholds

/-- A survey that has not begun has not skipped anything. -/
private theorem Run.not_passedOver (h : Run key t past) (hi : t.survey i = .idle) :
    ¬PassedOver i n (t :: past) := by
  induction h with
  | start => exact id
  | @step t t' past hrun hstep ih =>
    obtain heq | hturn := hstep.turn i
    · rintro (⟨⟨k, left, found, -, hp⟩, -⟩ | hpassed)
      · cases hi.symm.trans hp
      · exact ih (heq ▸ hi) hpassed
    · exact absurd hi hturn.ne_idle

private theorem Run.clears_le (h : Run key t past) (hu : u ∈ t :: past) :
    u.system.clears ≤ t.system.clears := by
  induction h with
  | start => rw [List.mem_singleton.mp hu]
  | @step t t' past hrun hstep ih =>
    obtain rfl | hu := List.mem_cons.mp hu
    · exact Nat.le_refl _
    · refine Nat.le_trans (ih hu) ?_
      cases hstep with
      | request s hrequest => exact hrequest.clears_le
      | survey => exact Nat.le_refl _

/-- What was made for a label stays in its slot until everything is cleared. -/
private theorem Consistent.filledFor (h : Consistent key t) (hstep : Step key t t')
    (hclears : t'.system.clears = t.system.clears)
    (hfilled : t.system.cache.FilledFor l n a) : t'.system.cache.FilledFor l n a := by
  obtain ⟨e, he, rfl⟩ := Option.map_eq_some_iff.mp hfilled.content
  cases hstep with
  | request s hrequest =>
    have htally : t.system.cache.tally n = some (e.artifact, e.uses) := by
      rw [Cache.tally, he]
      rfl
    obtain ⟨uses, hkept⟩ := (hrequest.effect h.sound).keeps htally
    obtain ⟨e', he', heq⟩ := Option.map_eq_some_iff.mp hkept
    have hfull : t.system.cache.content? n ≠ none := he ▸ Option.some_ne_none e
    refine ⟨hrequest.slotOf?_eq h.sound hclears hfilled.slot hfull, ?_⟩
    rw [he', ← (Prod.mk.inj heq).1]
    rfl
  | survey i c p hturn =>
    refine ⟨?_, ?_⟩
    · change c.slotOf? l = some n
      rw [Cache.slotOf?, hturn.mapped_eq]
      exact hfilled.slot
    · change (c.content? n).map _ = _
      rw [hturn.content?_eq]
      exact hfilled.content

/-- **The whole run.** From the moment at which an entry was there and a survey had not begun, the
entry stays until everything is cleared, and the survey has still to come to it, or has found it, or
has skipped it. -/
theorem Run.standing (h : Run key t past) (hu : u ∈ t :: past) (hi : u.survey i = .idle)
    (hfilled : u.system.cache.FilledFor l n a) (hclears : u.system.clears = t.system.clears) :
    t.system.cache.FilledFor l n a ∧ (t.survey i).Standing l a (PassedOver i n (t :: past)) := by
  induction h with
  | start =>
    obtain rfl := List.mem_singleton.mp hu
    exact ⟨hfilled, .ahead hi id⟩
  | @step t t' past hrun hstep ih =>
    obtain rfl | hu := List.mem_cons.mp hu
    · exact ⟨hfilled, .ahead hi ((hrun.step hstep).not_passedOver hi)⟩
    · have hle := hrun.clears_le hu
      have hle' := (hrun.step hstep).clears_le (List.mem_cons_of_mem t' List.mem_cons_self)
      have hsame : t'.system.clears = t.system.clears := by omega
      obtain ⟨hfilled, hstanding⟩ := ih hu (hclears.trans hsame)
      have hconsistent := hrun.consistent
      refine ⟨hconsistent.filledFor hstep hsame hfilled, ?_⟩
      have hskips : PassedOver i n (t' :: t :: past) ↔
          (t.survey i).Skips (t'.survey i) n ∨ PassedOver i n (t :: past) := by
        refine or_congr_left (hconsistent.passesOver_iff hstep fun hnone => ?_)
        have hcontent := hfilled.content
        rw [hnone] at hcontent
        cases hcontent
      obtain heq | hturn := hstep.turn i
      · rw [heq] at hskips ⊢
        rwa [hskips.trans (or_iff_right (Survey.not_skips_self _ _))]
      · exact hstanding.step hturn hconsistent.sound.proper hfilled (hconsistent.pending i)
          (hconsistent.once i) hskips

/-- **What a survey returns.** In every run of requests, clearings and surveys, a survey that has
returned has listed no label twice and nothing but entries that it has seen in the slots of their
keys. An entry that was there before the survey began, and is still in the table, is missed exactly
if the survey has skipped its slot while somebody was served from it, or had just filled it, or
copied the entry as well. -/
theorem Run.survey_exact (h : Run key t past) {found : List (CacheKey × Entry)}
    (hdone : t.survey i = .done found) :
    (found.map (·.1.label)).Nodup ∧
    (∀ x ∈ found, ∃ u ∈ past, ∃ n, (u.survey i).peeks? = some n ∧
      u.system.cache.slotOf? x.1.label = some n ∧ u.system.cache.content? n = some x.2) ∧
    ∀ u ∈ past, ∀ l n a, u.survey i = .idle → u.system.cache.FilledFor l n a →
      u.system.clears = t.system.clears →
        (∀ x ∈ found, x.1.label = l → x.2.artifact = a) ∧
        (l ∉ found.map (·.1.label) ↔ PassedOver i n (t :: past)) := by
  have honce := h.consistent.once i
  rw [hdone, Survey.labels, Survey.pending, List.map_nil, List.append_nil] at honce
  refine ⟨honce, fun x hx => h.seen_of_mem_found (by rwa [hdone]), ?_⟩
  intro u hu l n a hidle hfilled hclears
  obtain ⟨-, hstanding⟩ := h.standing (List.mem_cons_of_mem t hu) hidle hfilled hclears
  rw [hdone] at hstanding
  cases hstanding with
  | ahead hidle => cases hidle
  | awaited hl => cases hl
  | listed x hx hl ha hnot =>
    refine ⟨fun y hy hyl => ?_, iff_of_false (fun hmem => hmem ?_) hnot⟩
    · rw [List.inj_on_of_nodup_map honce hy hx (hyl.trans hl.symm)]
      exact ha
    · exact List.mem_map.mpr ⟨x, hx, hl⟩
  | missed _ hl hpassed =>
    have hnew : l ∉ found.map (·.1.label) := fun hmem => hl (List.mem_append_left _ hmem)
    exact ⟨fun x hx hxl => absurd (List.mem_map.mpr ⟨x, hx, hxl⟩) hnew, iff_of_true hnew hpassed⟩

/-- Requests and clearings alone, before any survey. -/
private theorem exists_run_of_reachable {s : System} (h : Reachable key s) :
    ∃ past, Run key ⟨s, fun _ => .idle⟩ past := by
  induction h with
  | refl => exact ⟨[], .start⟩
  | tail _ hstep ih =>
    obtain ⟨past, hrun⟩ := ih
    exact ⟨_, hrun.step (.request _ _ hstep fun _ _ => id)⟩

/-- A request is served from the only slot of the table while a survey goes through it. -/
private theorem exists_run_served :
    ∃ (key : Nat → CacheKey) (t u : Surveyed) (past : List Surveyed),
    Run key t past ∧ t.survey 0 = .done [] ∧ u ∈ past ∧ u.survey 0 = .idle ∧
      (u.system.flight 0).phase = .done 0 (.ok default) ∧
      (u.system.flight 1).phase = .testing 0 ∧
      u.system.cache.FilledFor (key 0).label 0 default ∧ u.system.clears = t.system.clears := by
  let key : Nat → CacheKey := fun _ => default
  -- one request has lowered its function and returned, and another one has the lock of the slot
  obtain ⟨s, hreachable, hcache, hslot, h0, h1⟩ : ∃ s, Reachable key s ∧
      s.cache = ⟨[(default, 0)], #[⟨true, some ⟨default, 0, none⟩⟩]⟩ ∧
      s.cache.slotOf? (key 0).label = some 0 ∧
      (s.flight 0).phase = .done 0 (.ok default) ∧ (s.flight 1).phase = .testing 0 := by
    have h₀ : Reachable key .start := .refl
    have h₁ := (h₀.tail (.begin _ 0 rfl)).tail (.begin _ 1 rfl)
    have h₂ := (h₁.tail (.miss _ 0 rfl rfl)).tail (.create _ 0 0 _ rfl rfl)
    have h₃ := (h₂.tail (.find _ 1 0 rfl rfl)).tail (.lock _ 0 0 rfl rfl)
    have h₄ := (h₃.tail (.empty _ 0 0 rfl rfl)).tail (.current _ 0 0 rfl rfl)
    have h₅ := (h₄.tail (.succeed _ 0 0 default rfl)).tail (.fill _ 0 0 default rfl)
    have h₆ := (h₅.tail (.unlock _ 0 0 _ rfl)).tail (.lock _ 1 0 rfl rfl)
    exact ⟨_, h₆, rfl, rfl, rfl, rfl⟩
  obtain ⟨past, hrun⟩ := exists_run_of_reachable hreachable
  have hmapped : [((default : CacheKey), 0)].Perm s.cache.mapped := by rw [hcache]
  have hbusy : s.cache.isBusy 0 = true := by
    rw [hcache]
    rfl
  have hcontent : (s.cache.content? 0).map (·.artifact) = some default := by
    rw [hcache]
    rfl
  have hentered := hrun.step (.survey _ 0 _ _ (.enter _ _ hmapped))
  have hskipped := hentered.step (.survey _ 0 _ _ (.skip _ (default, 0) [] [] hbusy))
  have hclosed := hskipped.step (.survey _ 0 _ _ (.close _ []))
  refine ⟨key, _, ⟨s, fun _ => .idle⟩, _, hclosed, ?_, ?_, rfl, h0, h1, ⟨hslot, hcontent⟩, rfl⟩
  · rw [survey_goto, if_pos rfl, List.mergeSort_nil]
  · exact List.mem_cons_of_mem _ (List.mem_cons_of_mem _ List.mem_cons_self)

/-- The survey has missed the entry because somebody was served from it. -/
theorem survey_exact_served : ∃ (key : Nat → CacheKey) (t : Surveyed) (past : List Surveyed),
    Run key t past ∧ t.survey 0 = .done [] ∧ PassedOver 0 0 (t :: past) := by
  obtain ⟨key, t, u, past, hrun, hdone, hu, hidle, -, -, hfilled, hclears⟩ := exists_run_served
  have hexact := (hrun.survey_exact hdone).2.2 u hu _ _ _ hidle hfilled hclears
  exact ⟨key, t, past, hrun, hdone, hexact.2.mp List.not_mem_nil⟩

/-- **An entry that was finished can be missed**: it is not so that a survey lists every label whose
entry was there before the survey began and was not cleared. -/
theorem not_forall_listed : ¬∀ (key : Nat → CacheKey) (t u : Surveyed) (past : List Surveyed)
    (i n : Nat) (l : Label) (a : Artifact) (found : List (CacheKey × Entry)),
    Run key t past → t.survey i = .done found → u ∈ past → u.survey i = .idle →
      u.system.cache.FilledFor l n a → u.system.clears = t.system.clears →
      l ∈ found.map (·.1.label) := by
  intro hall
  obtain ⟨key, t, u, past, hrun, hdone, hu, hidle, -, -, hfilled, hclears⟩ := exists_run_served
  cases hall key t u past 0 0 _ default [] hrun hdone hu hidle hfilled hclears

end Surveyed

end TensorLowering
