import TensorLowering.Cache.Table
import Mathlib.Data.List.Nodup

/-!
# Slots of a cache

Keys are looked up in a cache by what makes them the same, the fingerprint and the target
(`CacheKey.label`). In a proper cache (`Cache.Proper`) a label has at most one slot and a slot at
most one label. The lemmas below say of every operation what it does to the slot of a label, to the
content of a slot and to who works on it.
-/

namespace TensorLowering

/-- What makes two keys the same: the fingerprint of the function and the target. -/
abbrev Label := Fingerprint × Target

/-- The label of a key. -/
def CacheKey.label (k : CacheKey) : Label := (k.fingerprint, k.target)

/-- Keys are the same just if their labels are. -/
theorem CacheKey.same_iff {a b : CacheKey} : a.same b = true ↔ a.label = b.label := by
  unfold same label
  rw [Bool.and_eq_true, decide_eq_true_eq, decide_eq_true_eq, Prod.mk.injEq, and_comm]

private theorem CacheKey.same_eq_decide (a b : CacheKey) :
    a.same b = decide (a.label = b.label) := by
  rw [Bool.eq_iff_iff, same_iff, decide_eq_true_eq]

namespace Cache

/-- A label has one slot, a slot has one label, and every slot of a label was made. -/
structure Proper (c : Cache) : Prop where
  labels : (c.mapped.map (·.1.label)).Nodup
  slots : (c.mapped.map (·.2)).Nodup
  made : ∀ p ∈ c.mapped, p.2 < c.slots.size

variable {c : Cache} {key : CacheKey} {l l' : Label} {n m : Nat}

/-! ### The slot of a label -/

/-- The slot of a label. -/
def slotOf? (c : Cache) (l : Label) : Option Nat :=
  (c.mapped.find? fun p => decide (p.1.label = l)).map (·.2)

/-- The slot of a key is that of its label. -/
theorem slot?_eq (c : Cache) (key : CacheKey) : c.slot? key = c.slotOf? key.label := by
  unfold slot? slotOf?
  simp only [CacheKey.same_eq_decide]

/-- The slot of a label is mapped by a key with that label. -/
theorem exists_of_slotOf? (h : c.slotOf? l = some n) :
    ∃ k, (k, n) ∈ c.mapped ∧ k.label = l := by
  obtain ⟨p, hp, rfl⟩ := Option.map_eq_some_iff.mp h
  exact ⟨p.1, List.mem_of_find?_eq_some hp, by simpa using List.find?_some hp⟩

private theorem slotOf?_eq_none_iff : c.slotOf? l = none ↔ ∀ p ∈ c.mapped, p.1.label ≠ l := by
  unfold slotOf?
  rw [Option.map_eq_none_iff, List.find?_eq_none]
  simp

/-- In a proper table a key that is mapped is found. -/
theorem Proper.slotOf?_of_mem (h : c.Proper) {p : CacheKey × Nat} (hp : p ∈ c.mapped) :
    c.slotOf? p.1.label = some p.2 := by
  cases hl : c.slotOf? p.1.label with
  | none => exact absurd rfl (slotOf?_eq_none_iff.mp hl p hp)
  | some n =>
    obtain ⟨k, hk, hlabel⟩ := exists_of_slotOf? hl
    have := List.inj_on_of_nodup_map h.labels hk hp hlabel
    rw [← this]

/-- In a proper table only slots that exist are mapped. -/
theorem Proper.lt_of_slotOf? (h : c.Proper) (hn : c.slotOf? l = some n) : n < c.slots.size := by
  obtain ⟨k, hk, -⟩ := exists_of_slotOf? hn
  exact h.made _ hk

/-- A slot has one label. -/
theorem Proper.label_inj (h : c.Proper) (hn : c.slotOf? l = some n)
    (hn' : c.slotOf? l' = some n) : l = l' := by
  obtain ⟨k, hk, rfl⟩ := exists_of_slotOf? hn
  obtain ⟨k', hk', rfl⟩ := exists_of_slotOf? hn'
  have := List.inj_on_of_nodup_map h.slots hk hk' rfl
  rw [(Prod.mk.inj this).1]

/-- The empty table is proper. -/
theorem proper_empty : Proper empty :=
  ⟨List.nodup_nil, List.nodup_nil, fun _ h => absurd h List.not_mem_nil⟩

/-! ### Looking a key up, or making its slot -/

/-- A key that is mapped keeps its slot. -/
theorem slotFor_of_some (h : c.slotOf? key.label = some n) : c.slotFor key = (n, c) := by
  rw [← slot?_eq] at h
  unfold slotFor
  rw [h]

/-- A key that is not mapped gets the next slot, which is empty. -/
theorem slotFor_of_none (h : c.slotOf? key.label = none) :
    c.slotFor key =
      (c.slots.size, ⟨(key, c.slots.size) :: c.mapped, c.slots.push ⟨false, none⟩⟩) := by
  rw [← slot?_eq] at h
  unfold slotFor
  rw [h]

/-- Reserving a slot keeps a table proper. -/
theorem Proper.slotFor (h : c.Proper) (key : CacheKey) : (c.slotFor key).2.Proper := by
  cases hl : c.slotOf? key.label with
  | some n => rwa [slotFor_of_some hl]
  | none =>
    rw [slotFor_of_none hl]
    refine ⟨?_, ?_, ?_⟩
    · rw [List.map_cons, List.nodup_cons]
      refine ⟨?_, h.labels⟩
      intro hmem
      obtain ⟨p, hp, hlabel⟩ := List.mem_map.mp hmem
      exact slotOf?_eq_none_iff.mp hl p hp hlabel
    · rw [List.map_cons, List.nodup_cons]
      refine ⟨?_, h.slots⟩
      intro hmem
      obtain ⟨p, hp, hslot⟩ := List.mem_map.mp hmem
      have := h.made p hp
      omega
    · intro p hp
      rw [Array.size_push]
      obtain rfl | hp := List.mem_cons.mp hp
      · exact Nat.lt_succ_self _
      · have := h.made p hp
        omega

/-- Only the label of the key may be mapped anew. -/
theorem slotOf?_slotFor (c : Cache) (key : CacheKey) (l : Label) :
    (c.slotFor key).2.slotOf? l =
      if l = key.label then some (c.slotFor key).1 else c.slotOf? l := by
  cases hl : c.slotOf? key.label with
  | some n =>
    rw [slotFor_of_some hl]
    split
    · next h => rw [h, hl]
    · rfl
  | none =>
    rw [slotFor_of_none hl]
    unfold slotOf?
    rw [List.find?_cons]
    by_cases h : l = key.label
    · simp [h]
    · simp [h, Ne.symm h]

/-- The slot that is reserved exists. -/
theorem lt_slotFor (h : c.Proper) (key : CacheKey) :
    (c.slotFor key).1 < (c.slotFor key).2.slots.size := by
  cases hl : c.slotOf? key.label with
  | some n =>
    rw [slotFor_of_some hl]
    exact h.lt_of_slotOf? hl
  | none =>
    rw [slotFor_of_none hl, Array.size_push]
    exact Nat.lt_succ_self _

/-- A slot that is made is empty. -/
theorem content?_slotFor (c : Cache) (key : CacheKey) (n : Nat) :
    (c.slotFor key).2.content? n = c.content? n := by
  cases hl : c.slotOf? key.label with
  | some n => rw [slotFor_of_some hl]
  | none =>
    rw [slotFor_of_none hl]
    unfold content?
    rw [Array.getElem?_push]
    split
    · next h => subst h; simp
    · rfl

/-- Nobody works on a slot that is made. -/
theorem isBusy_slotFor (c : Cache) (key : CacheKey) (n : Nat) :
    (c.slotFor key).2.isBusy n = c.isBusy n := by
  cases hl : c.slotOf? key.label with
  | some n => rw [slotFor_of_some hl]
  | none =>
    rw [slotFor_of_none hl]
    unfold isBusy
    rw [Array.getElem?_push]
    split
    · next h => subst h; simp
    · rfl

/-! ### Working on a slot -/

/-- Modifying a slot makes no new one. -/
theorem size_modify (c : Cache) (n : Nat) (f : Slot → Slot) :
    ({ c with slots := c.slots.modify n f } : Cache).slots.size = c.slots.size :=
  Array.size_modify

/-- Modifying a slot keeps a table proper. -/
theorem Proper.modify (h : c.Proper) (n : Nat) (f : Slot → Slot) :
    ({ c with slots := c.slots.modify n f } : Cache).Proper :=
  ⟨h.labels, h.slots, fun p hp => by rw [size_modify]; exact h.made p hp⟩

private theorem content?_modify (c : Cache) (n m : Nat) (f : Slot → Slot) :
    ({ c with slots := c.slots.modify n f } : Cache).content? m =
      if n = m then c.slots[m]?.bind fun s => (f s).entry else c.content? m := by
  unfold content?
  rw [Array.getElem?_modify]
  split
  · rw [Option.bind_map]; rfl
  · rfl

private theorem isBusy_modify (c : Cache) (n m : Nat) (f : Slot → Slot) :
    ({ c with slots := c.slots.modify n f } : Cache).isBusy m =
      if n = m then (c.slots[m]?.map fun s => (f s).busy).getD false else c.isBusy m := by
  unfold isBusy
  rw [Array.getElem?_modify]
  split
  · rw [Option.map_map]; rfl
  · rfl

/-- To lock or unlock a slot leaves all contents as they are. -/
theorem content?_setBusy (c : Cache) (n m : Nat) (b : Bool) :
    (c.setBusy n b).content? m = c.content? m := by
  unfold setBusy
  rw [content?_modify]
  split <;> rfl

/-- Only that slot is locked or unlocked. -/
theorem isBusy_setBusy (hn : n < c.slots.size) (m : Nat) (b : Bool) :
    (c.setBusy n b).isBusy m = if n = m then b else c.isBusy m := by
  unfold setBusy
  rw [isBusy_modify]
  split
  · next h => subst h; rw [Array.getElem?_eq_getElem hn]; rfl
  · rfl

/-- To fill a slot changes its content and no other one. -/
theorem content?_fill (hn : n < c.slots.size) (m : Nat) (a : Artifact) :
    (c.fill n a).content? m = if n = m then some ⟨a, 0, none⟩ else c.content? m := by
  unfold fill
  rw [content?_modify]
  split
  · next h => subst h; rw [Array.getElem?_eq_getElem hn]; rfl
  · rfl

/-- To fill a slot neither locks nor unlocks one. -/
theorem isBusy_fill (c : Cache) (n m : Nat) (a : Artifact) :
    (c.fill n a).isBusy m = c.isBusy m := by
  unfold fill
  rw [isBusy_modify]
  split <;> rfl

/-- To modify an entry changes the content of its slot and no other one. -/
theorem content?_modifyEntry (c : Cache) (n m : Nat) (f : Entry → Entry) :
    (c.modifyEntry n f).content? m = if n = m then (c.content? m).map f else c.content? m := by
  unfold modifyEntry
  rw [content?_modify]
  split
  · unfold content?
    rw [Option.map_bind]
    rfl
  · rfl

/-- Changing an entry, but not its artifact. -/
theorem artifact_modifyEntry (c : Cache) (n : Nat) {f : Entry → Entry}
    (hf : ∀ e, (f e).artifact = e.artifact) (m : Nat) :
    ((c.modifyEntry n f).content? m).map (·.artifact) = (c.content? m).map (·.artifact) := by
  rw [content?_modifyEntry]
  split
  · rw [Option.map_map]
    exact congrArg (fun g => (c.content? m).map g) (funext hf)
  · rfl

/-- To modify an entry neither locks nor unlocks a slot. -/
theorem isBusy_modifyEntry (c : Cache) (n m : Nat) (f : Entry → Entry) :
    (c.modifyEntry n f).isBusy m = c.isBusy m := by
  unfold modifyEntry
  rw [isBusy_modify]
  split <;> rfl

/-! ### Taking a slot away -/

/-- A slot serves a key just if the key is mapped to it. -/
theorem serves_iff : c.serves key n = true ↔ c.slotOf? key.label = some n := by
  unfold serves
  rw [slot?_eq, beq_iff_eq]

private theorem mapped_detach_sublist (c : Cache) (key : CacheKey) (n : Nat) :
    (c.detach key n).mapped.Sublist c.mapped := by
  unfold detach
  split
  · exact List.filter_sublist
  · exact List.Sublist.refl _

/-- To detach a slot leaves all slots as they are. -/
theorem slots_detach (c : Cache) (key : CacheKey) (n : Nat) :
    (c.detach key n).slots = c.slots := by
  unfold detach
  split <;> rfl

/-- A detached slot keeps its content. -/
theorem content?_detach (c : Cache) (key : CacheKey) (n m : Nat) :
    (c.detach key n).content? m = c.content? m := by
  unfold content?
  rw [slots_detach]

/-- A detached slot is as busy as it was. -/
theorem isBusy_detach (c : Cache) (key : CacheKey) (n m : Nat) :
    (c.detach key n).isBusy m = c.isBusy m := by
  unfold isBusy
  rw [slots_detach]

/-- To detach a slot keeps a table proper. -/
theorem Proper.detach (h : c.Proper) (key : CacheKey) (n : Nat) : (c.detach key n).Proper := by
  have hsub := mapped_detach_sublist c key n
  refine ⟨h.labels.sublist (hsub.map _), h.slots.sublist (hsub.map _), fun p hp => ?_⟩
  rw [slots_detach]
  exact h.made p (hsub.subset hp)

/-- The slot is taken away from the key if it is the one of the key; other labels keep theirs. -/
theorem slotOf?_detach (c : Cache) (key : CacheKey) (n : Nat) (l : Label) :
    (c.detach key n).slotOf? l =
      if l = key.label ∧ c.slotOf? key.label = some n then none else c.slotOf? l := by
  unfold detach
  by_cases hserves : c.slotOf? key.label = some n
  · rw [if_pos (serves_iff.mpr hserves)]
    by_cases hl : l = key.label
    · rw [if_pos ⟨hl, hserves⟩, slotOf?_eq_none_iff]
      intro p hp heq
      have := (List.mem_filter.mp hp).2
      rw [CacheKey.same_eq_decide, heq, hl] at this
      simp at this
    · rw [if_neg fun h => hl h.1]
      unfold slotOf?
      rw [List.find?_filter]
      congr 2
      funext p
      by_cases hp : p.1.label = l
      · rw [CacheKey.same_eq_decide]
        simp [hp, hl]
      · simp [hp]
  · rw [if_neg fun h => hserves (serves_iff.mp h), if_neg fun h => hserves h.2]

/-- A cleared table is proper. -/
theorem proper_clear (c : Cache) : c.clear.Proper :=
  ⟨List.nodup_nil, List.nodup_nil, fun _ h => absurd h List.not_mem_nil⟩

end Cache

end TensorLowering
