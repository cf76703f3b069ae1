/-!
# Dictionaries with text keys

`Dict β` maps texts to values and lists its entries in ascending order of their keys, by code
point. The list is strictly ascending by construction, so two dictionaries with the same
entries are equal.
-/

namespace TensorLowering

/-- A finite map from texts to `β`, kept as a list strictly ascending in the keys. -/
structure Dict (β : Type) where
  /-- The entries, smallest key first. -/
  entries : List (String × β)
  /-- Keys ascend strictly: none occurs twice. -/
  ascending : entries.Pairwise fun a b => a.1 < b.1
deriving DecidableEq

namespace Dict

variable {β : Type}

/-- Put a value into an ascending list of entries, replacing the one of an equal key. -/
def insertEntry (key : String) (value : β) : List (String × β) → List (String × β)
  | [] => [(key, value)]
  | (k, v) :: rest =>
    if key < k then (key, value) :: (k, v) :: rest
    else if key = k then (key, value) :: rest
    else (k, v) :: insertEntry key value rest

private theorem mem_insertEntry {key : String} {value : β} {entries : List (String × β)}
    {e : String × β} (h : e ∈ insertEntry key value entries) :
    e = (key, value) ∨ e ∈ entries := by
  induction entries with
  | nil => simpa [insertEntry] using h
  | cons head rest ih =>
    obtain ⟨k, v⟩ := head
    rw [insertEntry] at h
    split at h
    · simpa using h
    · split at h
      · simp only [List.mem_cons] at h ⊢
        exact h.imp_right .inr
      · simp only [List.mem_cons] at h ⊢
        rcases h with h | h
        · exact .inr (.inl h)
        · exact (ih h).imp_right .inr

private theorem pairwise_insertEntry (key : String) (value : β) {entries : List (String × β)}
    (h : entries.Pairwise fun a b => a.1 < b.1) :
    (insertEntry key value entries).Pairwise fun a b => a.1 < b.1 := by
  induction entries with
  | nil => simp [insertEntry]
  | cons head rest ih =>
    obtain ⟨k, v⟩ := head
    rw [List.pairwise_cons] at h
    rw [insertEntry]
    split
    · next hlt =>
      refine List.pairwise_cons.mpr ⟨fun e he => ?_, List.pairwise_cons.mpr h⟩
      rcases List.mem_cons.mp he with rfl | he
      · exact hlt
      · exact String.lt_trans hlt (h.1 e he)
    · next hnlt =>
      split
      · next heq =>
        exact List.pairwise_cons.mpr ⟨fun e he => heq ▸ h.1 e he, h.2⟩
      · next hne =>
        refine List.pairwise_cons.mpr ⟨fun e he => ?_, ih h.2⟩
        rcases mem_insertEntry he with rfl | he
        · rcases Decidable.em (k < key) with hk | hk
          · exact hk
          · exact absurd (String.le_antisymm hk hnlt) hne
        · exact h.1 e he

/-- The dictionary without entries. -/
def empty : Dict β := ⟨[], .nil⟩

instance : Inhabited (Dict β) := ⟨empty⟩

/-- Set the value of a key; a later value replaces an earlier one. -/
def insert (d : Dict β) (key : String) (value : β) : Dict β :=
  ⟨insertEntry key value d.entries, pairwise_insertEntry key value d.ascending⟩

/-- The dictionary of a list of pairs; of equal keys the last one counts. -/
def ofList (pairs : List (String × β)) : Dict β :=
  pairs.foldl (fun d p => d.insert p.1 p.2) empty

/-- The value of a key. -/
def get? (d : Dict β) (key : String) : Option β := d.entries.lookup key

/-- The value that was put in last is found under its key. -/
theorem get?_insert_self (d : Dict β) (key : String) (value : β) :
    (d.insert key value).get? key = some value := by
  change (insertEntry key value d.entries).lookup key = some value
  induction d.entries with
  | nil => simp [insertEntry]
  | cons head rest ih =>
    obtain ⟨k, v⟩ := head
    rw [insertEntry]
    split
    · simp
    · split
      · simp
      · next hne => simp [List.lookup_cons, beq_eq_false_iff_ne.mpr hne, ih]

/-- Other keys keep their values. -/
theorem get?_insert_of_ne (d : Dict β) {key other : String} (value : β) (hne : other ≠ key) :
    (d.insert key value).get? other = d.get? other := by
  change (insertEntry key value d.entries).lookup other = d.entries.lookup other
  have hbeq : (other == key) = false := beq_eq_false_iff_ne.mpr hne
  induction d.entries with
  | nil => simp [insertEntry, List.lookup_cons, hbeq]
  | cons head rest ih =>
    obtain ⟨k, v⟩ := head
    rw [insertEntry]
    split
    · simp [List.lookup_cons, hbeq]
    · split
      · next heq => subst heq; simp [List.lookup_cons, hbeq]
      · simp [List.lookup_cons, ih]

/-- The keys in ascending order. -/
def keys (d : Dict β) : List String := d.entries.map (·.1)

/-- Whether there are no entries. -/
def isEmpty (d : Dict β) : Bool := d.entries.isEmpty

end Dict

end TensorLowering
