import TensorLowering.Proofs.Cache.Naming
import Mathlib.Algebra.Order.BigOperators.Group.Finset
import Mathlib.Data.Finset.Preimage

/-!
# The search for a free name

The search of `NameTable.claim` goes on in rounds (`NameTable.Round`): the name at hand is taken, it
is counted as taken once more, and the base with that count behind it is tried next. Names of this
form may be in the table with counts of their own, so the numbers that are tried do not ascend, and
a name may be tried again and again.

What does ascend is the count of each single name. The *suffixes* of a base are the numbers with
which it is taken (`NameTable.suffixes`), and no round changes them. A round that meets a name
either ends the search or lets the count of the name pass one suffix more, and a count passes a
suffix once. The names that are met are the base and those of the suffixes. So a search is over
after as many rounds as there are pairs of such a name and a suffix, and one more
(`NameTable.claim_rounds`).
-/

namespace TensorLowering

namespace NameTable

variable {base name : String} {t : NameTable} {n k : Nat}

/-! ### Rounds -/

/-- **One round** of the search, from the name that is tried and the table to the next ones. -/
inductive Round (base : String) : String × NameTable → String × NameTable → Prop where
  | taken (name : String) (t : NameTable) (n : Nat) : t.count? name = some n →
      Round base (name, t) (suffixedName base (n + 1), t.bump name)

/-- A number of rounds, one after the other. -/
inductive Rounds (base : String) : Nat → String × NameTable → String × NameTable → Prop where
  | none (s : String × NameTable) : Rounds base 0 s s
  | more {k : Nat} {s s' s'' : String × NameTable} : Round base s s' → Rounds base k s' s'' →
      Rounds base (k + 1) s s''

/-- Where a name is free, there are no more rounds. -/
private theorem Rounds.eq_zero {s : String × NameTable} (h : Rounds base k (name, t) s)
    (hfree : name ∉ t.names) : k = 0 := by
  cases h with
  | none => rfl
  | more hround _ =>
    cases hround with
    | taken _ _ n hn =>
      rw [count?_eq_none_iff.mpr hfree] at hn
      cases hn

/-- The search makes rounds until it meets a free name, and hands that out. -/
private theorem exists_rounds_claimFrom (base name : String) (t : NameTable) :
    ∃ k name' t', Rounds base k (name, t) (name', t') ∧ t'.count? name' = none ∧
      claimFrom base name t = (name', t'.add name') := by
  induction name, t using claimFrom.induct base with
  | case1 name t hfree =>
    refine ⟨0, name, t, .none _, hfree, ?_⟩
    rw [claimFrom]
    split
    · rfl
    · next n hn => rw [hfree] at hn; cases hn
  | case2 name t n hn ih =>
    obtain ⟨k, name', t', hrounds, hfree, hclaim⟩ := ih
    refine ⟨k + 1, name', t', .more (.taken name t n hn) hrounds, hfree, ?_⟩
    rw [← hclaim, claimFrom]
    split
    · next hfree => rw [hn] at hfree; cases hfree
    · next m hm =>
      rw [hn] at hm
      obtain rfl := Option.some.inj hm
      rfl

/-! ### Suffixes that are ahead -/

private theorem suffixedName_injective (base : String) : Function.Injective (suffixedName base) :=
  fun _ _ => suffixedName_inj

/-- The numbers with which a base is taken. -/
noncomputable def suffixes (t : NameTable) (base : String) : Finset Nat :=
  t.names.toFinset.preimage (suffixedName base) (suffixedName_injective base).injOn

private theorem mem_suffixes : n ∈ t.suffixes base ↔ suffixedName base n ∈ t.names := by
  rw [suffixes, Finset.mem_preimage, List.mem_toFinset]

private theorem suffixes_bump (t : NameTable) (base name : String) :
    (t.bump name).suffixes base = t.suffixes base := by
  ext n
  rw [mem_suffixes, mem_suffixes, names_bump]

/-- A name that is counted has a count that is greater by one; the others keep theirs. -/
private theorem count?_bump (t : NameTable) (name name' : String) :
    (t.bump name).count? name' =
      if name' = name then (t.count? name).map (· + 1) else t.count? name' := by
  obtain ⟨l⟩ := t
  change (bumpEntry name l).lookup name' =
    if name' = name then (l.lookup name).map (· + 1) else l.lookup name'
  induction l with
  | nil => simp [bumpEntry]
  | cons entry l ih =>
    obtain ⟨key, n⟩ := entry
    by_cases hkey : name = key
    · subst hkey
      by_cases h : name' = name
      · simp [bumpEntry, h]
      · simp [bumpEntry, List.lookup_cons, beq_false_of_ne h, h]
    · by_cases h : name' = key
      · subst h
        simp [bumpEntry, hkey, Ne.symm hkey]
      · simp [bumpEntry, List.lookup_cons, beq_false_of_ne h, beq_false_of_ne hkey, ih]

/-- The suffixes that the count of a name has not passed. -/
noncomputable def ahead (t : NameTable) (base name : String) : Finset Nat :=
  (t.suffixes base).filter ((t.count? name).getD 0 < ·)

private theorem ahead_bump_of_ne {name' : String} (h : name' ≠ name) :
    (t.bump name).ahead base name' = t.ahead base name' := by
  rw [ahead, ahead, suffixes_bump, count?_bump, if_neg h]

/-- A count that passes a suffix has one suffix less ahead. -/
private theorem card_ahead_bump_lt (hn : t.count? name = some n)
    (hsuffix : n + 1 ∈ t.suffixes base) :
    ((t.bump name).ahead base name).card < (t.ahead base name).card := by
  refine Finset.card_lt_card (Finset.ssubset_iff_of_subset ?_ |>.mpr ⟨n + 1, ?_, ?_⟩)
  · intro m hm
    rw [ahead, suffixes_bump, count?_bump, if_pos rfl, hn, Finset.mem_filter] at hm
    rw [ahead, hn, Finset.mem_filter]
    exact ⟨hm.1, Nat.lt_of_succ_lt hm.2⟩
  · rw [ahead, hn, Finset.mem_filter]
    exact ⟨hsuffix, Nat.lt_succ_self n⟩
  · rw [ahead, suffixes_bump, count?_bump, if_pos rfl, hn, Finset.mem_filter]
    exact fun h => Nat.lt_irrefl _ h.2

/-- How many suffixes some names have ahead, taken together. -/
noncomputable def allAhead (t : NameTable) (base : String) (names : Finset String) : Nat :=
  ∑ name ∈ names, (t.ahead base name).card

private theorem allAhead_bump_lt {names : Finset String} (hname : name ∈ names)
    (hn : t.count? name = some n) (hsuffix : n + 1 ∈ t.suffixes base) :
    (t.bump name).allAhead base names < t.allAhead base names := by
  refine Finset.sum_lt_sum (fun name' _ => ?_) ⟨name, hname, card_ahead_bump_lt hn hsuffix⟩
  by_cases h : name' = name
  · exact h ▸ (card_ahead_bump_lt hn hsuffix).le
  · rw [ahead_bump_of_ne h]

/-- Each of the names has at most all suffixes ahead. -/
private theorem allAhead_le (t : NameTable) (base : String) (names : Finset String) :
    t.allAhead base names ≤ names.card * (t.suffixes base).card :=
  Finset.sum_le_card_nsmul _ _ _ fun _ _ => Finset.card_filter_le _ _

/-! ### The end of the search -/

/-- The names that a search for a base can meet: the base, and those of the suffixes. -/
noncomputable def met (t : NameTable) (base : String) : Finset String :=
  insert base ((t.suffixes base).image (suffixedName base))

private theorem card_met_le (t : NameTable) (base : String) :
    (t.met base).card ≤ (t.suffixes base).card + 1 :=
  (Finset.card_insert_le _ _).trans (Nat.succ_le_succ Finset.card_image_le)

/-- From one of these names there are no more rounds than suffixes ahead of them, and one. -/
private theorem Rounds.le {s s' : String × NameTable} (h : Rounds base k s s')
    (hname : s.1 ∈ s.2.met base) : k ≤ s.2.allAhead base (s.2.met base) + 1 := by
  induction h with
  | none => exact Nat.zero_le _
  | more hround hrounds ih =>
    cases hround with
    | taken name t n hn =>
      change name ∈ t.met base at hname
      change _ ≤ t.allAhead base (t.met base) + 1
      have hmet : (t.bump name).met base = t.met base := by rw [met, met, suffixes_bump]
      by_cases hsuffix : n + 1 ∈ t.suffixes base
      · -- the next name is one of the suffixes, and one suffix less is ahead
        have hnext : suffixedName base (n + 1) ∈ t.met base :=
          Finset.mem_insert_of_mem (Finset.mem_image_of_mem _ hsuffix)
        have hle := ih (hmet ▸ hnext)
        have hlt := allAhead_bump_lt hname hn hsuffix
        rw [hmet] at hle
        exact Nat.succ_le_succ (hle.trans hlt)
      · -- the next name is free
        have hfree : suffixedName base (n + 1) ∉ (t.bump name).names := by
          rwa [names_bump, ← mem_suffixes]
        rw [hrounds.eq_zero hfree]
        exact Nat.le_add_left 1 _

/-- **The search for a free name ends.** For every base and every table, whatever names it has and
whatever their counts are, no search for the base goes on for more rounds than there are pairs of a
name it can meet and a suffix of the base, and one; and the search makes rounds up to a name that
is free, which is handed out. -/
theorem claim_rounds (base : String) (t : NameTable) :
    (∀ k s, Rounds base k (base, t) s →
      k ≤ ((t.suffixes base).card + 1) * (t.suffixes base).card + 1) ∧
    ∃ k name t', Rounds base k (base, t) (name, t') ∧ t'.count? name = none ∧
      t.claim base = (name, t'.add name) := by
  refine ⟨fun k s h => ?_, exists_rounds_claimFrom base base t⟩
  have hle := h.le (Finset.mem_insert_self base _)
  have hahead := t.allAhead_le base (t.met base)
  have hmet := Nat.mul_le_mul_right (t.suffixes base).card (t.card_met_le base)
  exact hle.trans (Nat.succ_le_succ (hahead.trans hmet))

end NameTable

end TensorLowering
