import TensorLowering.Proofs.Cache.Refinement
import Mathlib.Logic.Relation

/-!
# Moments of a run with requests inside requests

While a function is lowered, strategies and implementations may issue requests of their own and
clear the caches. A `Moment` is a machine together with what happened on it so far: how often the
caches were cleared, which lowerings are in progress, and which have succeeded. Of every lowering
it is remembered how often the caches had been cleared when it began.

`Moment.Step` are the changes that requests make of, one at a time: a lowering begins, succeeds,
fails or panics, the caches are cleared, an entry is used, or something happens that does not touch
the caches. A lowering that ends is always the one that began last, so those in progress are a
stack of frames; but its slot may have been taken away from its key meanwhile.

What relates the caches to the past is `Cache.Tracks`: the slot of a lowering in progress is the
one of its key exactly if the caches were not cleared since it began. Every step keeps this
(`Moment.Sound.step`), and so at every moment the caches list what was lowered successfully since
they were last cleared, and nothing else (`Moment.Sound.exact`).
-/

namespace TensorLowering

/-! ### What a cache keeps for a label -/

namespace Cache

variable {c : Cache} {key : CacheKey} {l : Label} {n : Nat}

/-- The artifact in the slot of a label. -/
def kept? (c : Cache) (l : Label) : Option Artifact :=
  (c.slotOf? l).bind fun n => (c.content? n).map (·.artifact)

/-- What is kept under a label is what is in its slot. -/
theorem kept?_of_slotOf? (h : c.slotOf? l = some n) :
    c.kept? l = (c.content? n).map (·.artifact) := by
  rw [kept?, h]
  rfl

/-- Only slots that exist are busy. -/
theorem lt_of_isBusy (h : c.isBusy n = true) : n < c.slots.size := by
  by_contra hn
  rw [isBusy, Array.getElem?_eq_none (Nat.le_of_not_lt hn)] at h
  cases h

private theorem kept?_setBusy (c : Cache) (n : Nat) (b : Bool) (l : Label) :
    (c.setBusy n b).kept? l = c.kept? l := by
  simp only [kept?, content?_setBusy]
  rfl

private theorem kept?_modifyEntry (c : Cache) (n : Nat) {f : Entry → Entry}
    (hf : ∀ e, (f e).artifact = e.artifact) (l : Label) :
    (c.modifyEntry n f).kept? l = c.kept? l := by
  simp only [kept?, artifact_modifyEntry c n hf]
  rfl

private theorem kept?_fill (hn : n < c.slots.size) (a : Artifact) (l : Label) :
    (c.fill n a).kept? l = if c.slotOf? l = some n then some a else c.kept? l := by
  change ((c.slotOf? l).bind fun m => ((c.fill n a).content? m).map (·.artifact)) = _
  split
  · next hl =>
    rw [hl, Option.bind_some, content?_fill hn, if_pos rfl]
    rfl
  · next hl =>
    cases hm : c.slotOf? l with
    | none => rw [kept?, hm]; rfl
    | some m =>
      have hne : n ≠ m := fun heq => hl (heq ▸ hm)
      rw [Option.bind_some, content?_fill hn, if_neg hne, kept?_of_slotOf? hm]

/-- Taking an empty slot away takes nothing away. -/
private theorem kept?_detach (h : c.content? n = none) (key : CacheKey) (l : Label) :
    (c.detach key n).kept? l = c.kept? l := by
  rw [kept?, slotOf?_detach]
  split
  · next hl => rw [hl.1, kept?_of_slotOf? hl.2, h]; rfl
  · simp only [content?_detach]
    rfl

/-- Reserving a slot keeps nothing new. -/
theorem kept?_slotFor (c : Cache) (key : CacheKey) (l : Label) :
    (c.slotFor key).2.kept? l = c.kept? l := by
  cases hkey : c.slotOf? key.label with
  | some n => rw [slotFor_of_some hkey]
  | none =>
    rw [kept?, slotOf?_slotFor]
    split
    · next hl =>
      -- the slot that was made is empty
      rw [Option.bind_some, content?_slotFor, slotFor_of_none hkey, kept?, hl, hkey]
      simp [content?]
    · simp only [content?_slotFor]
      rfl

/-- A slot that is filled was there before. -/
theorem slotFor_of_content? {e : Entry}
    (h : (c.slotFor key).2.content? (c.slotFor key).1 = some e) : (c.slotFor key).2 = c := by
  cases hkey : c.slotOf? key.label with
  | some n => rw [slotFor_of_some hkey]
  | none =>
    rw [content?_slotFor, slotFor_of_none hkey] at h
    simp [content?] at h

/-- The slots that are shown are those that keep something, if nobody works on a filled slot. -/
private theorem mem_items_iff (hproper : c.Proper)
    (hblank : ∀ n, c.isBusy n = true → c.content? n = none) (l : Label) (a : Artifact) :
    (∃ e ∈ c.items, e.1.label = l ∧ e.2.artifact = a) ↔ c.kept? l = some a := by
  constructor
  · rintro ⟨⟨k, e⟩, he, rfl, rfl⟩
    rw [items, List.mem_mergeSort, List.mem_filterMap] at he
    obtain ⟨p, hp, hshown⟩ := he
    unfold shown? at hshown
    split at hshown
    · cases hshown
    · obtain ⟨e', he', hpe⟩ := Option.map_eq_some_iff.mp hshown
      obtain ⟨rfl, rfl⟩ := Prod.mk.inj hpe
      rw [kept?_of_slotOf? (hproper.slotOf?_of_mem hp), he']
      rfl
  · intro hkept
    obtain ⟨n, hn, hcontent⟩ := Option.bind_eq_some_iff.mp hkept
    obtain ⟨e, he, rfl⟩ := Option.map_eq_some_iff.mp hcontent
    obtain ⟨k, hk, rfl⟩ := exists_of_slotOf? hn
    have hidle : ¬c.isBusy n = true := by
      intro hbusy
      rw [hblank n hbusy] at he
      cases he
    refine ⟨(k, e), ?_, rfl, rfl⟩
    rw [items, List.mem_mergeSort, List.mem_filterMap]
    refine ⟨(k, n), hk, ?_⟩
    rw [shown?, if_neg hidle, he]
    rfl

end Cache

/-! ### Lowerings in progress and one cache -/

/-- A lowering in progress. -/
structure Frame where
  aspect : Aspect
  key : CacheKey
  /-- The slot that it is to fill. -/
  slot : Nat
  /-- How often the caches had been cleared when it began. -/
  begun : Nat

/-- How a cache that was cleared so many times stands to the lowerings in progress in it, and to
what was lowered successfully since it was cleared. -/
structure Cache.Tracks (c : Cache) (clears : Nat) (frames : List Frame)
    (lowered : Label → Artifact → Prop) : Prop where
  proper : c.Proper
  /-- Somebody works on just the slots of the lowerings in progress. -/
  busy : ∀ n, c.isBusy n = true ↔ ∃ fr ∈ frames, fr.slot = n
  blank : ∀ fr ∈ frames, c.content? fr.slot = none
  apart : (frames.map (·.slot)).Nodup
  /-- The slot is the one of the key, unless the cache was cleared since the lowering began. -/
  mapped : ∀ fr ∈ frames, ∀ l,
    c.slotOf? l = some fr.slot ↔ l = fr.key.label ∧ fr.begun = clears
  begun : ∀ fr ∈ frames, fr.begun ≤ clears
  kept : ∀ l a, c.kept? l = some a ↔ lowered l a

namespace Cache.Tracks

variable {c : Cache} {clears : Nat} {frames rest : List Frame} {lowered : Label → Artifact → Prop}
  {fr : Frame} {key : CacheKey} {n : Nat}

/-- Of the empty table there is nothing to track. -/
theorem empty : Tracks .empty 0 [] fun _ _ => False := by
  refine ⟨proper_empty, fun n => ?_, ?_, List.nodup_nil, ?_, ?_, fun l a => ?_⟩
  · simp [isBusy, Cache.empty]
  · exact fun _ h => absurd h List.not_mem_nil
  · exact fun _ h => absurd h List.not_mem_nil
  · exact fun _ h => absurd h List.not_mem_nil
  · simp [kept?, slotOf?, Cache.empty]

private theorem blank_of_busy (h : c.Tracks clears frames lowered) (hn : c.isBusy n = true) :
    c.content? n = none := by
  obtain ⟨fr, hfr, rfl⟩ := (h.busy n).mp hn
  exact h.blank fr hfr

/-- A frame works in a slot that exists. -/
theorem lt_slot (h : c.Tracks clears frames lowered) (hfr : fr ∈ frames) :
    fr.slot < c.slots.size :=
  lt_of_isBusy ((h.busy fr.slot).mpr ⟨fr, hfr, rfl⟩)

/-- The innermost lowering has a slot of its own. -/
private theorem slot_ne (h : c.Tracks clears (fr :: rest) lowered) {fr' : Frame}
    (hfr' : fr' ∈ rest) : fr.slot ≠ fr'.slot := by
  intro heq
  have hapart := h.apart
  rw [List.map_cons, List.nodup_cons] at hapart
  exact hapart.1 (heq ▸ List.mem_map_of_mem hfr')

/-- Reserving a slot disturbs no frame. -/
theorem slotFor (h : c.Tracks clears frames lowered) (key : CacheKey) :
    (c.slotFor key).2.Tracks clears frames lowered := by
  refine ⟨h.proper.slotFor key, fun n => ?_, fun fr hfr => ?_, h.apart, fun fr hfr l => ?_, h.begun,
    fun l a => ?_⟩
  · rw [isBusy_slotFor]
    exact h.busy n
  · rw [content?_slotFor]
    exact h.blank fr hfr
  · rw [← h.mapped fr hfr l, slotOf?_slotFor]
    cases hkey : c.slotOf? key.label with
    | some n =>
      rw [slotFor_of_some hkey]
      split
      · next hl => rw [hl, hkey]
      · rfl
    | none =>
      rw [slotFor_of_none hkey]
      split
      · next hl =>
        have hlt := h.lt_slot hfr
        have hne : c.slots.size ≠ fr.slot := by omega
        simp [hl, hkey, hne]
      · rfl
  · rw [kept?_slotFor]
    exact h.kept l a

/-- A lowering begins in the slot of its key. -/
private theorem begin (h : c.Tracks clears frames lowered) {aspect : Aspect}
    (hslot : c.slotOf? key.label = some n) (hidle : c.isBusy n = false)
    (hempty : c.content? n = none) :
    (c.setBusy n true).Tracks clears (⟨aspect, key, n, clears⟩ :: frames) lowered := by
  have hlt : n < c.slots.size := h.proper.lt_of_slotOf? hslot
  have hnew (fr : Frame) (hfr : fr ∈ frames) : fr.slot ≠ n := by
    rintro rfl
    rw [(h.busy fr.slot).mpr ⟨fr, hfr, rfl⟩] at hidle
    cases hidle
  refine ⟨h.proper.modify n _, fun m => ?_, fun fr hfr => ?_, ?_, fun fr hfr l => ?_,
    fun fr hfr => ?_, fun l a => ?_⟩
  · rw [isBusy_setBusy hlt, List.exists_mem_cons_iff]
    split
    · next hnm => simp [hnm]
    · next hnm => simp [hnm, h.busy]
  · rw [content?_setBusy]
    obtain rfl | hfr := List.mem_cons.mp hfr
    · exact hempty
    · exact h.blank fr hfr
  · rw [List.map_cons, List.nodup_cons]
    refine ⟨fun hmem => ?_, h.apart⟩
    obtain ⟨fr, hfr, heq⟩ := List.mem_map.mp hmem
    exact hnew fr hfr heq
  · change c.slotOf? l = some fr.slot ↔ _
    obtain rfl | hfr := List.mem_cons.mp hfr
    · constructor
      · intro hl
        exact ⟨h.proper.label_inj hl hslot, rfl⟩
      · rintro ⟨rfl, -⟩
        exact hslot
    · exact h.mapped fr hfr l
  · obtain rfl | hfr := List.mem_cons.mp hfr
    · exact Nat.le_refl clears
    · exact h.begun fr hfr
  · rw [kept?_setBusy]
    exact h.kept l a

/-- The innermost lowering ends, after its slot was filled, taken away or left as it was. -/
theorem leave (h : c.Tracks clears (fr :: rest) lowered) {c' : Cache}
    {lowered' : Label → Artifact → Prop} (hproper : c'.Proper)
    (hsize : c'.slots.size = c.slots.size) (hbusy : ∀ n, c'.isBusy n = c.isBusy n)
    (hcontent : ∀ n, fr.slot ≠ n → c'.content? n = c.content? n)
    (hslot : ∀ n, fr.slot ≠ n → ∀ l, c'.slotOf? l = some n ↔ c.slotOf? l = some n)
    (hkept : ∀ l a, c'.kept? l = some a ↔ lowered' l a) :
    (c'.setBusy fr.slot false).Tracks clears rest lowered' := by
  have hlt : fr.slot < c'.slots.size := by
    rw [hsize]
    exact h.lt_slot List.mem_cons_self
  have hapart := h.apart
  rw [List.map_cons, List.nodup_cons] at hapart
  refine ⟨hproper.modify fr.slot _, fun n => ?_, fun fr' hfr' => ?_, hapart.2, fun fr' hfr' l => ?_,
    fun fr' hfr' => h.begun fr' (List.mem_cons_of_mem _ hfr'), fun l a => ?_⟩
  · rw [isBusy_setBusy hlt, hbusy]
    split
    · next hn =>
      subst hn
      simp only [Bool.false_eq_true, false_iff, not_exists, not_and]
      exact fun fr' hfr' heq => h.slot_ne hfr' heq.symm
    · next hn => simp [h.busy, hn]
  · rw [content?_setBusy, hcontent _ (h.slot_ne hfr')]
    exact h.blank fr' (List.mem_cons_of_mem _ hfr')
  · exact (hslot _ (h.slot_ne hfr') l).trans (h.mapped fr' (List.mem_cons_of_mem _ hfr') l)
  · rw [kept?_setBusy]
    exact hkept l a

/-- The innermost lowering ends and leaves its slot empty. -/
private theorem panic (h : c.Tracks clears (fr :: rest) lowered) :
    (c.setBusy fr.slot false).Tracks clears rest lowered :=
  h.leave h.proper rfl (fun _ => rfl) (fun _ _ => rfl) (fun _ _ _ => Iff.rfl) h.kept

/-- The innermost lowering fails, and its slot is taken away if it still is the one of its key. -/
private theorem fail (h : c.Tracks clears (fr :: rest) lowered) :
    ((c.detach fr.key fr.slot).setBusy fr.slot false).Tracks clears rest lowered := by
  refine h.leave (h.proper.detach _ _) (congrArg Array.size (slots_detach _ _ _))
    (fun n => isBusy_detach _ _ _ n) (fun n _ => content?_detach _ _ _ n) (fun n hn l => ?_)
    (fun l a => ?_)
  · rw [slotOf?_detach]
    split
    · next hl =>
      rw [hl.1, hl.2]
      simp [hn]
    · rfl
  · rw [kept?_detach (h.blank fr List.mem_cons_self)]
    exact h.kept l a

/-- The innermost lowering succeeds. What it made is kept for its key, unless the cache was cleared
since it began. -/
private theorem succeed (h : c.Tracks clears (fr :: rest) lowered) (a : Artifact) :
    ((c.fill fr.slot a).setBusy fr.slot false).Tracks clears rest fun l b =>
      (l = fr.key.label ∧ b = a ∧ fr.begun = clears) ∨ lowered l b := by
  have hlt : fr.slot < c.slots.size := h.lt_slot List.mem_cons_self
  have hblank : c.content? fr.slot = none := h.blank fr List.mem_cons_self
  refine h.leave (h.proper.modify _ _) (size_modify _ _ _) (fun n => isBusy_fill _ _ n _)
    (fun n hn => ?_) (fun _ _ _ => Iff.rfl) (fun l b => ?_)
  · rw [content?_fill hlt, if_neg hn]
  · rw [kept?_fill hlt, ← h.kept l b]
    by_cases hl : c.slotOf? l = some fr.slot
    · obtain ⟨hlabel, hbegun⟩ := (h.mapped fr List.mem_cons_self l).mp hl
      rw [if_pos hl, kept?_of_slotOf? hl, hblank]
      simp [hlabel, hbegun, eq_comm]
    · have hover : ¬(l = fr.key.label ∧ fr.begun = clears) :=
        fun hboth => hl ((h.mapped fr List.mem_cons_self l).mpr hboth)
      rw [if_neg hl]
      constructor
      · exact Or.inr
      · rintro (⟨hlabel, -, hbegun⟩ | hkept)
        · exact absurd ⟨hlabel, hbegun⟩ hover
        · exact hkept

/-- The cache is cleared: it keeps nothing, and no lowering in progress has the slot of its key. -/
theorem clear (h : c.Tracks clears frames lowered) :
    c.clear.Tracks (clears + 1) frames fun _ _ => False := by
  refine ⟨proper_clear c, h.busy, h.blank, h.apart, fun fr hfr l => ?_, fun fr hfr => ?_,
    fun l a => ?_⟩
  · have hbegun := h.begun fr hfr
    constructor
    · intro hl
      cases hl
    · rintro ⟨-, heq⟩
      omega
  · have hbegun := h.begun fr hfr
    omega
  · have hnone : c.clear.kept? l = none := rfl
    simp [hnone]

/-- An entry is changed, but not its artifact. -/
private theorem touch (h : c.Tracks clears frames lowered) (n : Nat) {f : Entry → Entry}
    (hf : ∀ e, (f e).artifact = e.artifact) :
    (c.modifyEntry n f).Tracks clears frames lowered := by
  refine ⟨h.proper.modify n _, fun m => ?_, fun fr hfr => ?_, h.apart, h.mapped, h.begun,
    fun l a => ?_⟩
  · rw [isBusy_modifyEntry]
    exact h.busy m
  · rw [content?_modifyEntry, h.blank fr hfr]
    split <;> rfl
  · rw [kept?_modifyEntry c n hf]
    exact h.kept l a

end Cache.Tracks

/-! ### Moments -/

/-- A lowering that succeeded. -/
structure Success where
  aspect : Aspect
  label : Label
  artifact : Artifact
  /-- How often the caches had been cleared when it began. -/
  begun : Nat

/-- A machine with what happened on it so far. -/
structure Moment (σ : Type) where
  machine : Machine σ
  /-- How often the caches were cleared. -/
  clears : Nat
  /-- The lowerings in progress, innermost first. -/
  frames : List Frame
  /-- The lowerings that succeeded, last one first. -/
  succeeded : List Success

namespace Moment

variable {σ : Type}

/-- A new machine, on which nothing happened. -/
def start (own : σ) (next : Nat) : Moment σ := ⟨.initial own next, 0, [], []⟩

/-- A lowering that began after the caches were cleared last has succeeded. -/
def Keeps (M : Moment σ) (aspect : Aspect) (l : Label) (a : Artifact) : Prop :=
  ⟨aspect, l, a, M.clears⟩ ∈ M.succeeded

/-- **The caches list what was lowered since they were cleared.** The entries of a cache are
exactly those of the keys for which a lowering that began after the caches were cleared last has
succeeded. -/
def Exact (M : Moment σ) : Prop :=
  ∀ aspect l a, (∃ e ∈ (M.machine.cache aspect).items, e.1.label = l ∧ e.2.artifact = a) ↔
    M.Keeps aspect l a

/-- The key is not being lowered, except by lowerings that began before the caches were cleared. -/
def Idle (M : Moment σ) (aspect : Aspect) (key : CacheKey) : Prop :=
  ∀ fr ∈ M.frames, fr.aspect = aspect → fr.key.label = key.label → fr.begun ≠ M.clears

/-- The lowering of a key that could begin. -/
def frame (M : Moment σ) (aspect : Aspect) (key : CacheKey) : Frame :=
  ⟨aspect, key, ((M.machine.cache aspect).slotFor key).1, M.clears⟩

/-- The lowering of a key begins. -/
def begin (M : Moment σ) (aspect : Aspect) (key : CacheKey) : Moment σ :=
  let found := (M.machine.cache aspect).slotFor key
  { M with
    machine := M.machine.modifyCache aspect fun _ => found.2.setBusy found.1 true
    frames := M.frame aspect key :: M.frames }

/-- The innermost lowering, which is `fr`, succeeds. -/
def succeed (M : Moment σ) (fr : Frame) (a : Artifact) : Moment σ :=
  { M with
    machine := M.machine.modifyCache fr.aspect fun c =>
      (c.fill fr.slot a).setBusy fr.slot false
    frames := M.frames.tail
    succeeded := ⟨fr.aspect, fr.key.label, a, fr.begun⟩ :: M.succeeded }

/-- The innermost lowering, which is `fr`, ends with a fault. -/
def fail (M : Moment σ) (fr : Frame) : Moment σ :=
  { M with
    machine := M.machine.modifyCache fr.aspect fun c =>
      (c.detach fr.key fr.slot).setBusy fr.slot false
    frames := M.frames.tail }

/-- The innermost lowering, which is `fr`, ends with a panic. -/
def panic (M : Moment σ) (fr : Frame) : Moment σ :=
  { M with
    machine := M.machine.modifyCache fr.aspect fun c => c.setBusy fr.slot false
    frames := M.frames.tail }

/-- The caches are cleared. -/
def clear (M : Moment σ) : Moment σ :=
  { M with machine := M.machine.clear, clears := M.clears + 1 }

/-- One change, from one moment to the next. -/
inductive Step : Moment σ → Moment σ → Prop where
  /-- Something that does not touch the caches. -/
  | calm {M : Moment σ} (m : Machine σ) : (∀ aspect, m.cache aspect = M.machine.cache aspect) →
      Step M { M with machine := m }
  /-- An entry is counted as used, or gets an entry point. -/
  | touch {M : Moment σ} (aspect : Aspect) (slot : Nat) {f : Entry → Entry} :
      (∀ e, (f e).artifact = e.artifact) →
      Step M { M with machine := M.machine.modifyCache aspect fun c => c.modifyEntry slot f }
  | begin {M : Moment σ} (aspect : Aspect) (key : CacheKey) :
      ((M.machine.cache aspect).slotFor key).2.isBusy
        ((M.machine.cache aspect).slotFor key).1 = false →
      ((M.machine.cache aspect).slotFor key).2.content?
        ((M.machine.cache aspect).slotFor key).1 = none →
      Step M (M.begin aspect key)
  | succeed {M : Moment σ} {fr : Frame} {rest : List Frame} (a : Artifact) :
      M.frames = fr :: rest → Step M (M.succeed fr a)
  | fail {M : Moment σ} {fr : Frame} {rest : List Frame} :
      M.frames = fr :: rest → Step M (M.fail fr)
  | panic {M : Moment σ} {fr : Frame} {rest : List Frame} :
      M.frames = fr :: rest → Step M (M.panic fr)
  | clear (M : Moment σ) : Step M M.clear

/-- Any number of changes, one after the other. -/
abbrev Path (M N : Moment σ) : Prop := Relation.ReflTransGen Step M N

/-! ### Soundness -/

/-- The lowerings in progress in one of the caches. -/
def framesIn (M : Moment σ) (aspect : Aspect) : List Frame :=
  M.frames.filter fun fr => fr.aspect = aspect

/-- The caches are as what happened so far says. -/
structure Sound (M : Moment σ) : Prop where
  tracks : ∀ aspect,
    (M.machine.cache aspect).Tracks M.clears (M.framesIn aspect) (M.Keeps aspect)
  begun : ∀ s ∈ M.succeeded, s.begun ≤ M.clears

variable {M N : Moment σ} {fr : Frame} {rest : List Frame}

/-- The frames of the innermost aspect begin with the innermost frame. -/
theorem framesIn_cons (h : M.frames = fr :: rest) :
    M.framesIn fr.aspect = fr :: rest.filter fun g => g.aspect = fr.aspect := by
  rw [framesIn, h, List.filter_cons_of_pos (by simp)]

private theorem framesIn_cons_of_ne (h : M.frames = fr :: rest) {aspect : Aspect}
    (hne : aspect ≠ fr.aspect) : M.framesIn aspect = rest.filter fun g => g.aspect = aspect := by
  rw [framesIn, h, List.filter_cons_of_neg (by simpa using hne.symm)]

/-- At the start no frame is open and nothing was lowered. -/
theorem sound_start (own : σ) (next : Nat) : (start own next).Sound := by
  refine ⟨fun aspect => ?_, fun s hs => absurd hs List.not_mem_nil⟩
  have hkeeps : (start own next).Keeps aspect = fun _ _ => False := by
    funext l a
    simp [Keeps, start]
  rw [hkeeps]
  cases aspect <;> exact Cache.Tracks.empty

/-- A change of one cache, after which the other one stands as it stood. -/
private theorem Sound.modify (h : M.Sound) {aspect : Aspect} {f : Cache → Cache}
    {frames : List Frame} {succeeded : List Success}
    (hframes : ∀ b, b ≠ aspect → frames.filter (fun fr => fr.aspect = b) = M.framesIn b)
    (hkeeps : ∀ b l a, b ≠ aspect →
      (⟨b, l, a, M.clears⟩ ∈ succeeded ↔ ⟨b, l, a, M.clears⟩ ∈ M.succeeded))
    (hbegun : ∀ s ∈ succeeded, s.begun ≤ M.clears)
    (htracks : (f (M.machine.cache aspect)).Tracks M.clears
      (frames.filter fun fr => fr.aspect = aspect)
      fun l a => ⟨aspect, l, a, M.clears⟩ ∈ succeeded) :
    Sound { M with machine := M.machine.modifyCache aspect f, frames, succeeded } := by
  refine ⟨fun b => ?_, hbegun⟩
  change ((M.machine.modifyCache aspect f).cache b).Tracks M.clears (frames.filter _) _
  rw [Machine.cache_modifyCache]
  split
  · next hb => subst hb; exact htracks
  · next hb =>
    rw [hframes b hb]
    have hsame : Keeps { M with machine := M.machine.modifyCache aspect f, frames, succeeded } b =
        M.Keeps b := by
      funext l a
      exact propext (hkeeps b l a hb)
    rw [hsame]
    exact h.tracks b

/-- The innermost lowering ends without a result, and its cache is changed accordingly. -/
private theorem Sound.abandon (h : M.Sound) (hframes : M.frames = fr :: rest) {f : Cache → Cache}
    (hf : ∀ {c : Cache} {frames : List Frame} {lowered : Label → Artifact → Prop},
      c.Tracks M.clears (fr :: frames) lowered → (f c).Tracks M.clears frames lowered) :
    Sound { M with
      machine := M.machine.modifyCache fr.aspect f
      frames := M.frames.tail } := by
  have htracks := h.tracks fr.aspect
  rw [framesIn_cons hframes] at htracks
  refine h.modify (fun b hb => ?_) (fun _ _ _ _ => Iff.rfl) h.begun ?_
  · rw [hframes, framesIn_cons_of_ne hframes hb]
    rfl
  · rw [hframes]
    exact hf htracks

/-- **One step.** -/
theorem Sound.step (h : M.Sound) (hstep : M.Step N) : N.Sound := by
  cases hstep with
  | calm m hm =>
    refine ⟨fun aspect => ?_, h.begun⟩
    change (m.cache aspect).Tracks _ _ _
    rw [hm]
    exact h.tracks aspect
  | touch aspect slot hf =>
    exact h.modify (fun _ _ => rfl) (fun _ _ _ _ => Iff.rfl) h.begun
      ((h.tracks aspect).touch slot hf)
  | begin aspect key hidle hempty =>
    -- the new lowering is the innermost one of its cache, and none of the other
    refine h.modify (fun b hb => ?_) (fun _ _ _ _ => Iff.rfl) h.begun ?_
    · refine List.filter_cons_of_neg ?_
      rw [decide_eq_true_eq]
      exact hb.symm
    · rw [List.filter_cons_of_pos (by simp [frame])]
      refine ((h.tracks aspect).slotFor key).begin ?_ hidle hempty
      rw [Cache.slotOf?_slotFor, if_pos rfl]
  | @succeed fr rest a hframes =>
    have htracks := h.tracks fr.aspect
    rw [framesIn_cons hframes] at htracks
    refine h.modify (fun b hb => ?_) (fun b l a' hb => ?_) (fun s hs => ?_) ?_
    · rw [hframes, framesIn_cons_of_ne hframes hb]
      rfl
    · rw [List.mem_cons, Success.mk.injEq]
      simp [hb]
    · obtain rfl | hs := List.mem_cons.mp hs
      · exact htracks.begun fr List.mem_cons_self
      · exact h.begun s hs
    · have hdone := htracks.succeed a
      rw [hframes]
      simpa [Keeps, eq_comm] using hdone
  | fail hframes => exact h.abandon hframes fun htracks => htracks.fail
  | panic hframes => exact h.abandon hframes fun htracks => htracks.panic
  | clear =>
    refine ⟨fun aspect => ?_, fun s hs => Nat.le_succ_of_le (h.begun s hs)⟩
    -- what has succeeded so far began before this clear
    have hnone : M.clear.Keeps aspect = fun _ _ => False := by
      funext l a
      refine eq_false fun hmem => ?_
      exact absurd (h.begun _ hmem) (Nat.not_succ_le_self _)
    have hcleared := (h.tracks aspect).clear
    rw [hnone]
    cases aspect <;> exact hcleared

/-- **A whole path.** -/
theorem Sound.path (h : M.Sound) (hpath : M.Path N) : N.Sound := by
  induction hpath with
  | refl => exact h
  | tail _ hstep ih => exact ih.step hstep

/-- In a sound moment the caches list what was lowered since they were cleared. -/
theorem Sound.exact (h : M.Sound) : M.Exact := by
  intro aspect l a
  have htracks := h.tracks aspect
  rw [Cache.mem_items_iff htracks.proper (fun _ => htracks.blank_of_busy)]
  exact htracks.kept l a

/-! ### What becomes of what is kept -/

/-- What is kept stays until the caches are cleared. -/
theorem Keeps.path {aspect : Aspect} {l : Label} {a : Artifact} (h : M.Keeps aspect l a)
    (hpath : M.Path N) (hclears : N.clears = M.clears) : N.Keeps aspect l a := by
  suffices hkept : M.clears ≤ N.clears ∧ M.succeeded ⊆ N.succeeded by
    rw [Keeps, hclears]
    exact hkept.2 h
  clear h hclears
  induction hpath with
  | refl => exact ⟨Nat.le_refl _, List.Subset.refl _⟩
  | tail _ hstep ih =>
    cases hstep with
    | calm | touch | begin | fail | panic => exact ih
    | succeed a hframes => exact ⟨ih.1, fun s hs => List.mem_cons_of_mem _ (ih.2 hs)⟩
    | clear => exact ⟨Nat.le_succ_of_le ih.1, ih.2⟩

/-- Of the lowerings that succeed, just those are kept that began after the caches were cleared. -/
theorem keeps_succeed_iff {aspect : Aspect} {l : Label} {a b : Artifact} :
    (M.succeed fr a).Keeps aspect l b ↔
      (aspect = fr.aspect ∧ l = fr.key.label ∧ b = a ∧ fr.begun = M.clears) ∨
        M.Keeps aspect l b := by
  change ⟨aspect, l, b, M.clears⟩ ∈ _ :: M.succeeded ↔ _
  rw [List.mem_cons, Success.mk.injEq, eq_comm (a := M.clears)]
  rfl

/-- A lowering that fails takes away no slot but its own, and that only if the caches were not
cleared since it began. -/
theorem Sound.slotOf?_fail (h : M.Sound) (hframes : M.frames = fr :: rest) {aspect : Aspect}
    {l : Label} (hother : ¬(aspect = fr.aspect ∧ l = fr.key.label ∧ fr.begun = M.clears)) :
    ((M.fail fr).machine.cache aspect).slotOf? l = (M.machine.cache aspect).slotOf? l := by
  change ((M.machine.modifyCache fr.aspect _).cache aspect).slotOf? l = _
  rw [Machine.cache_modifyCache]
  split
  · next haspect =>
    subst haspect
    have htracks := h.tracks fr.aspect
    rw [framesIn_cons hframes] at htracks
    change ((M.machine.cache fr.aspect).detach fr.key fr.slot).slotOf? l = _
    rw [Cache.slotOf?_detach, if_neg]
    rintro ⟨hlabel, hslot⟩
    rw [← hlabel] at hslot
    exact hother ⟨rfl, (htracks.mapped fr List.mem_cons_self l).mp hslot⟩
  · rfl

/-- A frame that fails leaves the contents of the slots as they are. -/
theorem content?_fail (aspect : Aspect) (n : Nat) :
    ((M.fail fr).machine.cache aspect).content? n = (M.machine.cache aspect).content? n := by
  change ((M.machine.modifyCache fr.aspect _).cache aspect).content? n = _
  rw [Machine.cache_modifyCache]
  split
  · next haspect =>
    rw [Cache.content?_setBusy, Cache.content?_detach, haspect]
  · rfl

end Moment

end TensorLowering
