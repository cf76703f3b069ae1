/-!
# Names handed out

A name table remembers every name it has handed out, each with the number of times it was found
taken. `NameTable.claim` hands out a base name as it is if it is free. Otherwise it counts the
name it met as taken once more and goes on with the base name followed by that count, until it
meets a free name.

The search ends since the table is finite: a count that grows beyond every suffix in the table
leads to a free name. `NameTable.suffixBound` is such a bound, and `NameTable.slack` what the
counts still have to grow.
-/

namespace TensorLowering

/-- A base name with a number behind it. -/
def suffixedName (base : String) (n : Nat) : String := base ++ "_" ++ n.repr

/-- Different suffixes give different names. -/
theorem suffixedName_inj {base : String} {m n : Nat}
    (h : suffixedName base m = suffixedName base n) : m = n := by
  have digits := congrArg String.toList ((String.append_right_inj (base ++ "_")).mp h)
  rw [Nat.toList_repr, Nat.toList_repr] at digits
  rw [← Nat.ofDigitChars_ten_toDigits (n := m), digits, Nat.ofDigitChars_ten_toDigits]

/-- Some number is beyond the suffixes in any list of names. -/
private theorem exists_suffixedName_notMem (base : String) (names : List String) :
    ∃ bound, ∀ n, bound ≤ n → suffixedName base n ∉ names := by
  induction names with
  | nil => exact ⟨0, fun n _ => List.not_mem_nil⟩
  | cons name names ih =>
    obtain ⟨bound, h⟩ := ih
    rcases Classical.em (∃ m, suffixedName base m = name) with ⟨m, rfl⟩ | hne
    · refine ⟨max bound (m + 1), fun n hn hmem => ?_⟩
      rcases List.mem_cons.mp hmem with heq | hmem
      · have := suffixedName_inj heq
        omega
      · exact h n (by omega) hmem
    · refine ⟨bound, fun n hn hmem => ?_⟩
      rcases List.mem_cons.mp hmem with heq | hmem
      · exact hne ⟨n, heq⟩
      · exact h n hn hmem

/-- The names handed out so far. -/
structure NameTable where
  /-- Each name with the number of times it was found taken. -/
  counts : List (String × Nat)
deriving Inhabited

namespace NameTable

/-- The table without names. -/
def empty : NameTable := ⟨[]⟩

/-- The names in the table. -/
def names (t : NameTable) : List String := t.counts.map (·.1)

/-- How often a name in the table was found taken. -/
def count? (t : NameTable) (name : String) : Option Nat := t.counts.lookup name

/-- Count a name as taken once more. -/
def bumpEntry (name : String) : List (String × Nat) → List (String × Nat)
  | [] => []
  | (k, n) :: rest => if name == k then (k, n + 1) :: rest else (k, n) :: bumpEntry name rest

/-- Count a name as taken once more. -/
def bump (t : NameTable) (name : String) : NameTable := ⟨bumpEntry name t.counts⟩

/-- Add a new name. -/
def add (t : NameTable) (name : String) : NameTable := ⟨(name, 0) :: t.counts⟩

@[simp] theorem names_bump (t : NameTable) (name : String) : (t.bump name).names = t.names := by
  have : ∀ l : List (String × Nat), (bumpEntry name l).map (·.1) = l.map (·.1) := by
    intro l
    induction l with
    | nil => rfl
    | cons e l ih =>
      obtain ⟨k, n⟩ := e
      rw [bumpEntry]
      split
      · rfl
      · rw [List.map_cons, List.map_cons, ih]
  exact this t.counts

/-- A name has no count just if it was never claimed. -/
theorem count?_eq_none_iff {t : NameTable} {name : String} :
    t.count? name = none ↔ name ∉ t.names := by
  obtain ⟨l⟩ := t
  change l.lookup name = none ↔ name ∉ l.map (·.1)
  induction l with
  | nil => simp
  | cons e l ih =>
    obtain ⟨k, n⟩ := e
    rw [List.lookup_cons, List.map_cons, List.mem_cons, not_or]
    split
    · next heq => exact iff_of_false (by simp) fun h => h.1 (eq_of_beq heq)
    · next hne => rw [ih]; exact (and_iff_right fun h => by simp [h] at hne).symm

/-! ### The search for a free name -/

/-- A number from which on no suffixed name is in the table. -/
noncomputable def suffixBound (base : String) (t : NameTable) : Nat :=
  (exists_suffixedName_notMem base t.names).choose

private theorem suffixedName_notMem {base : String} {t : NameTable} {n : Nat}
    (h : suffixBound base t ≤ n) : suffixedName base n ∉ t.names :=
  (exists_suffixedName_notMem base t.names).choose_spec n h

@[simp] theorem suffixBound_bump (base name : String) (t : NameTable) :
    suffixBound base (t.bump name) = suffixBound base t := by
  unfold suffixBound
  simp only [names_bump]

/-- How much the counts can grow before all have reached a bound. -/
def slack (bound : Nat) (t : NameTable) : Nat :=
  t.counts.foldr (fun e rest => (bound - e.2) + rest) 0

private theorem slack_bump_le {bound : Nat} {t : NameTable} {name : String} :
    slack bound (t.bump name) ≤ slack bound t := by
  have : ∀ l : List (String × Nat),
      (bumpEntry name l).foldr (fun e rest => (bound - e.2) + rest) 0 ≤
        l.foldr (fun e rest => (bound - e.2) + rest) 0 := by
    intro l
    induction l with
    | nil => exact Nat.le_refl _
    | cons e l ih =>
      obtain ⟨k, n⟩ := e
      rw [bumpEntry]
      split
      · simp only [List.foldr_cons]
        omega
      · simp only [List.foldr_cons]
        omega
  exact this t.counts

private theorem slack_bump_lt {bound n : Nat} {t : NameTable} {name : String}
    (h : t.count? name = some n) (hn : n < bound) :
    slack bound (t.bump name) < slack bound t := by
  have : ∀ l : List (String × Nat), l.lookup name = some n →
      (bumpEntry name l).foldr (fun e rest => (bound - e.2) + rest) 0 <
        l.foldr (fun e rest => (bound - e.2) + rest) 0 := by
    intro l
    induction l with
    | nil => intro h; cases h
    | cons e l ih =>
      obtain ⟨k, m⟩ := e
      intro h
      rw [List.lookup_cons] at h
      rw [bumpEntry]
      split at h
      · next heq =>
        injection h with h
        subst h
        simp only [heq, if_true, List.foldr_cons]
        omega
      · next hne =>
        have := ih h
        simp only [hne, Bool.false_eq_true, if_false, List.foldr_cons]
        omega
  exact this t.counts h

/-- Whether a name still has to be replaced. -/
def pending (t : NameTable) (name : String) : Nat := if name ∈ t.names then 1 else 0

/-- Hand out the first free name among `name` and the suffixed names it leads to. -/
def claimFrom (base name : String) (t : NameTable) : String × NameTable :=
  match _h : t.count? name with
  | none => (name, t.add name)
  | some n => claimFrom base (suffixedName base (n + 1)) (t.bump name)
termination_by (slack (suffixBound base t) t, pending t name)
decreasing_by
  rw [suffixBound_bump]
  rcases Nat.lt_or_ge n (suffixBound base t) with hn | hn
  · exact Prod.Lex.left _ _ (slack_bump_lt _h hn)
  · have taken : name ∈ t.names := Decidable.byContradiction fun hmem => by
      rw [count?_eq_none_iff.mpr hmem] at _h
      cases _h
    have free : suffixedName base (n + 1) ∉ (t.bump name).names := by
      rw [names_bump]
      exact suffixedName_notMem (Nat.le_succ_of_le hn)
    have hpending : pending (t.bump name) (suffixedName base (n + 1)) < pending t name := by
      simp only [pending, if_neg free, if_pos taken]
      exact Nat.one_pos
    rcases Nat.lt_or_eq_of_le (@slack_bump_le (suffixBound base t) t name) with hlt | heq
    · exact Prod.Lex.left _ _ hlt
    · rw [heq]
      exact Prod.Lex.right _ hpending

/-- Hand out a name for a base: the base itself, or the base with a suffix. -/
def claim (t : NameTable) (base : String) : String × NameTable := claimFrom base base t

end NameTable

end TensorLowering
