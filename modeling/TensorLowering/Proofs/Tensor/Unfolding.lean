import TensorLowering.Proofs.Tensor.Register
import TensorLowering.Tensor.Search
import Mathlib.Tactic.Tauto

/-!
# The search for a workload does not see what is shared

`nearestWorkload?` looks at every tensor once. It finds the same annotation as the plain
breadth-first search `unfoldedSearch`, which takes the graph as a tree and looks at a tensor
wherever it is used (`nearestWorkload?_eq_unfoldedSearch`). The reason is that a tensor that is
passed over was looked at before: it has no annotation, and what it is computed from was looked at
before or stands further left in the next level. The invariant is that the tensors of a level that
are new, in the order in which they are met, are the same with and without sharing (`unseen`).

So the answer depends on what the tensors look like when they are unfolded, and not on their
numbers.
-/

namespace TensorLowering

/-! ### The tree of a graph -/

/-- What the tensors of a level are computed from, from left to right. -/
def inputsOf (level : List Tensor) : List Tensor := level.flatMap Tensor.inputs

/-- The tensors of the next level are less high. -/
theorem heightList_inputsOf_lt {level : List Tensor} (hne : inputsOf level ≠ []) :
    Tensor.heightList (inputsOf level) < Tensor.heightList level := by
  have hbelow : ∀ t ∈ inputsOf level, t.height < Tensor.heightList level := by
    intro t ht
    obtain ⟨u, hu, htu⟩ := List.mem_flatMap.mp ht
    have hlt := Tensor.height_lt_of_mem_inputs htu
    exact Nat.lt_of_lt_of_le hlt (Tensor.height_le_heightList hu)
  obtain ⟨t, ht⟩ := List.exists_mem_of_ne_nil _ hne
  have hpos := hbelow t ht
  have hle := Tensor.heightList_le fun u hu => Nat.le_pred_of_lt (hbelow u hu)
  have hpred := Nat.pred_lt_of_lt hpos
  omega

/-- Search level by level, without remembering what was looked at. -/
def unfoldedSearch (level : List Tensor) : Option Workload :=
  match level.findSome? Tensor.workload? with
  | some w => some w
  | none => if _hne : inputsOf level = [] then none else unfoldedSearch (inputsOf level)
termination_by Tensor.heightList level
decreasing_by exact heightList_inputsOf_lt _hne

/-! ### The new tensors of a level -/

/-- The tensors of a level whose numbers were not met before, each at its first place. -/
def unseen (seen : List Nat) : List Tensor → List Tensor
  | [] => []
  | t :: ts => if t.id ∈ seen then unseen seen ts else t :: unseen (t.id :: seen) ts

/-- It only matters which tensors were seen. -/
theorem unseen_congr {seen seen' : List Nat} (h : ∀ i, i ∈ seen ↔ i ∈ seen') (ts : List Tensor) :
    unseen seen ts = unseen seen' ts := by
  induction ts generalizing seen seen' with
  | nil => rfl
  | cons t ts ih =>
    have hcons : ∀ i, i ∈ t.id :: seen ↔ i ∈ t.id :: seen' := by
      intro i
      rw [List.mem_cons, List.mem_cons, h i]
    rw [unseen, unseen, if_congr (h t.id) (ih h) (congrArg _ (ih hcons))]

private theorem unseen_append (seen : List Nat) (ts us : List Tensor) :
    unseen seen (ts ++ us) = unseen seen ts ++ unseen (ts.map Tensor.id ++ seen) us := by
  induction ts generalizing seen with
  | nil => rfl
  | cons t ts ih =>
    rw [List.cons_append, unseen, unseen, List.map_cons, List.cons_append]
    split
    · next hseen =>
      rw [ih]
      refine congrArg _ (unseen_congr ?_ us)
      intro i
      rw [List.mem_cons, List.mem_append]
      constructor
      · exact Or.inr
      · rintro (rfl | h)
        · exact Or.inr hseen
        · exact h
    · rw [ih, List.cons_append]
      refine congrArg _ (congrArg _ (unseen_congr ?_ us))
      intro i
      simp only [List.mem_append, List.mem_cons]
      tauto

private theorem unseen_eq_nil {seen : List Nat} {ts : List Tensor} (h : ∀ t ∈ ts, t.id ∈ seen) :
    unseen seen ts = [] := by
  induction ts with
  | nil => rfl
  | cons t ts ih =>
    rw [unseen, if_pos (h t List.mem_cons_self)]
    exact ih fun u hu => h u (List.mem_cons_of_mem _ hu)

private theorem mem_of_mem_unseen {seen : List Nat} {ts : List Tensor} {t : Tensor}
    (h : t ∈ unseen seen ts) : t ∈ ts := by
  induction ts generalizing seen with
  | nil => exact h
  | cons u ts ih =>
    rw [unseen] at h
    split at h
    · exact List.mem_cons_of_mem _ (ih h)
    · obtain rfl | h := List.mem_cons.mp h
      · exact List.mem_cons_self
      · exact List.mem_cons_of_mem _ (ih h)

/-- A level is looked through by looking at its new tensors. -/
theorem scanLevel_eq {seen : Std.HashSet Nat} {numbers : List Nat}
    (h : ∀ i, i ∈ seen ↔ i ∈ numbers) (next ts : List Tensor) :
    match (unseen numbers ts).findSome? Tensor.workload? with
    | some w => scanLevel seen next ts = .found w
    | none => ∃ seen', scanLevel seen next ts =
          .missed seen' (next ++ inputsOf (unseen numbers ts)) ∧
        ∀ i, i ∈ seen' ↔ i ∈ (unseen numbers ts).map Tensor.id ++ numbers := by
  induction ts generalizing seen numbers next with
  | nil => exact ⟨seen, by rw [unseen, inputsOf, List.flatMap_nil, List.append_nil, scanLevel], h⟩
  | cons t ts ih =>
    rw [unseen, scanLevel]
    by_cases hseen : t.id ∈ numbers
    · rw [if_pos hseen, if_pos ((h _).mpr hseen)]
      exact ih h next
    rw [if_neg hseen, if_neg fun hmem => hseen ((h _).mp hmem), List.findSome?_cons]
    cases hw : t.workload? with
    | some w => rfl
    | none =>
      have hinsert : ∀ i, i ∈ seen.insert t.id ↔ i ∈ t.id :: numbers := by
        intro i
        rw [Std.HashSet.mem_insert, List.mem_cons, h i, beq_iff_eq, eq_comm]
      have hrest := ih hinsert (next ++ t.inputs)
      dsimp only
      split
      · next w hfound =>
        rw [hfound] at hrest
        exact hrest
      · next hnone =>
        rw [hnone] at hrest
        obtain ⟨seen', hscan, hmem⟩ := hrest
        refine ⟨seen', ?_, ?_⟩
        · rw [hscan, inputsOf, inputsOf, List.flatMap_cons, List.append_assoc]
        · intro i
          rw [hmem i]
          simp only [List.mem_append, List.mem_cons, List.map_cons]
          tauto

section

variable {r : Register} {level : List Tensor}

/-- Tensors that are passed over have no annotation that could be found. -/
private theorem findSome?_unseen {seen : List Nat} (hmade : ∀ t ∈ level, r.made t)
    (hnone : ∀ t ∈ level, t.id ∈ seen → t.workload? = none) :
    (unseen seen level).findSome? Tensor.workload? = level.findSome? Tensor.workload? := by
  induction level generalizing seen with
  | nil => rfl
  | cons t ts ih =>
    have hmade' : ∀ u ∈ ts, r.made u := fun u hu => hmade u (List.mem_cons_of_mem _ hu)
    have ht : r.made t := hmade t List.mem_cons_self
    rw [unseen, List.findSome?_cons]
    split
    · next hseen =>
      rw [hnone t List.mem_cons_self hseen]
      exact ih hmade' fun u hu => hnone u (List.mem_cons_of_mem _ hu)
    · rw [List.findSome?_cons]
      cases hw : t.workload? with
      | some w => rfl
      | none =>
        refine ih hmade' ?_
        intro u hu hseen
        obtain heq | hseen := List.mem_cons.mp hseen
        · rw [r.id_inj u t (hmade' u hu) ht heq, hw]
        · exact hnone u (List.mem_cons_of_mem _ hu) hseen

/-- What the tensors that are passed over are computed from is passed over as well. -/
private theorem unseen_inputsOf {seen seen' : List Nat} (hmade : ∀ t ∈ level, r.made t)
    (hclosed : ∀ t ∈ level, t.id ∈ seen → ∀ u ∈ t.inputs, u.id ∈ seen') :
    unseen seen' (inputsOf level) = unseen seen' (inputsOf (unseen seen level)) := by
  induction level generalizing seen seen' with
  | nil => rfl
  | cons t ts ih =>
    have hmade' : ∀ u ∈ ts, r.made u := fun u hu => hmade u (List.mem_cons_of_mem _ hu)
    have ht : r.made t := hmade t List.mem_cons_self
    have hsplit : inputsOf (t :: ts) = t.inputs ++ inputsOf ts := List.flatMap_cons
    rw [hsplit, unseen, unseen_append]
    split
    · next hseen =>
      have hinputs : ∀ u ∈ t.inputs, u.id ∈ seen' := hclosed t List.mem_cons_self hseen
      have hsame : ∀ i, i ∈ t.inputs.map Tensor.id ++ seen' ↔ i ∈ seen' := by
        intro i
        rw [List.mem_append, or_iff_right_iff_imp]
        intro hi
        obtain ⟨u, hu, rfl⟩ := List.mem_map.mp hi
        exact hinputs u hu
      rw [unseen_eq_nil hinputs, List.nil_append, unseen_congr hsame]
      exact ih hmade' fun u hu => hclosed u (List.mem_cons_of_mem _ hu)
    · have hsplit' : inputsOf (t :: unseen (t.id :: seen) ts) =
          t.inputs ++ inputsOf (unseen (t.id :: seen) ts) := List.flatMap_cons
      rw [hsplit', unseen_append]
      refine congrArg _ (ih hmade' ?_)
      intro u hu hseen v hv
      rw [List.mem_append]
      obtain heq | hseen := List.mem_cons.mp hseen
      · obtain rfl := r.id_inj u t (hmade' u hu) ht heq
        exact Or.inl (List.mem_map_of_mem hv)
      · exact Or.inr (hclosed u (List.mem_cons_of_mem _ hu) hseen v hv)

private theorem made_inputsOf (hmade : ∀ t ∈ level, r.made t) : ∀ t ∈ inputsOf level, r.made t := by
  intro t ht
  obtain ⟨u, hu, htu⟩ := List.mem_flatMap.mp ht
  exact r.made_inputs u t (hmade u hu) htu

/-- Every number that stands in a level is met there, or was met before. -/
private theorem mem_unseen_or_seen {seen : List Nat} {t : Tensor} (ht : t ∈ level) :
    t.id ∈ (unseen seen level).map Tensor.id ++ seen := by
  induction level generalizing seen with
  | nil => exact absurd ht List.not_mem_nil
  | cons u ts ih =>
    rw [unseen]
    split
    · next hseen =>
      obtain rfl | ht := List.mem_cons.mp ht
      · exact List.mem_append_right _ hseen
      · exact ih ht
    · rw [List.map_cons, List.cons_append]
      obtain rfl | ht := List.mem_cons.mp ht
      · exact List.mem_cons_self
      · have hrest : t.id ∈ (unseen (u.id :: seen) ts).map Tensor.id ++ u.id :: seen := ih ht
        simp only [List.mem_append, List.mem_cons] at hrest ⊢
        tauto

/-- What is known of the numbers met so far, before a level is looked through: their tensors have
no annotation, and what they are computed from was met before or stands in the level. -/
structure Explored (r : Register) (seen : List Nat) (level : List Tensor) : Prop where
  workload : ∀ t, r.made t → t.id ∈ seen → t.workload? = none
  inputs : ∀ t, r.made t → t.id ∈ seen → ∀ u ∈ t.inputs,
    u.id ∈ (unseen seen level).map Tensor.id ++ seen

/-- From one level to the next, if nothing was found. -/
theorem Explored.next {seen : List Nat} (h : Explored r seen level)
    (hmade : ∀ t ∈ level, r.made t)
    (hnone : (unseen seen level).findSome? Tensor.workload? = none) :
    Explored r ((unseen seen level).map Tensor.id ++ seen) (inputsOf (unseen seen level)) := by
  -- a number met on this level belongs to a tensor of the level, as numbers tell tensors apart
  have hcases : ∀ t, r.made t → t.id ∈ (unseen seen level).map Tensor.id ++ seen →
      t ∈ unseen seen level ∨ t.id ∈ seen := by
    intro t ht hmem
    obtain hmem | hmem := List.mem_append.mp hmem
    · obtain ⟨u, hu, heq⟩ := List.mem_map.mp hmem
      have hu' : r.made u := hmade u (mem_of_mem_unseen hu)
      rw [r.id_inj t u ht hu' heq.symm]
      exact Or.inl hu
    · exact Or.inr hmem
  constructor
  · intro t ht hmem
    obtain hmem | hmem := hcases t ht hmem
    · exact List.findSome?_eq_none_iff.mp hnone t hmem
    · exact h.workload t ht hmem
  · intro t ht hmem u hu
    obtain hmem | hmem := hcases t ht hmem
    · exact mem_unseen_or_seen (List.mem_flatMap.mpr ⟨t, hmem, hu⟩)
    · exact List.mem_append_right _ (h.inputs t ht hmem u hu)

private theorem searchLevels_nil (seen : Std.HashSet Nat) : searchLevels seen [] = none := by
  rw [searchLevels]
  rfl

/-- A search that remembers what it looked at, and the search through the tree. The two levels
have the same new tensors; the second one repeats the others. -/
private theorem searchLevels_eq_unfoldedSearch {seen : Std.HashSet Nat} {numbers : List Nat}
    {level level' : List Tensor} (hseen : ∀ i, i ∈ seen ↔ i ∈ numbers)
    (hmade : ∀ t ∈ level, r.made t) (hmade' : ∀ t ∈ level', r.made t)
    (hexplored : Explored r numbers level) (hsame : unseen numbers level = unseen numbers level') :
    searchLevels seen level = unfoldedSearch level' := by
  have hfind : (unseen numbers level).findSome? Tensor.workload? =
      level'.findSome? Tensor.workload? := by
    rw [hsame]
    exact findSome?_unseen hmade' fun t ht => hexplored.workload t (hmade' t ht)
  have hscan := scanLevel_eq hseen [] level
  rw [searchLevels, unfoldedSearch, ← hfind]
  cases hw : (unseen numbers level).findSome? Tensor.workload? with
  | some w =>
    rw [hw] at hscan
    dsimp only at hscan ⊢
    split
    · next w' hscan' =>
      rw [hscan] at hscan'
      exact congrArg some (LevelResult.found.inj hscan').symm
    · next seen' next hscan' =>
      rw [hscan] at hscan'
      contradiction
  | none =>
    rw [hw] at hscan
    obtain ⟨seen', hscan, hmem⟩ := hscan
    rw [List.nil_append] at hscan
    have hnext := hexplored.next hmade hw
    have hsame' : unseen ((unseen numbers level).map Tensor.id ++ numbers) (inputsOf level') =
        unseen ((unseen numbers level).map Tensor.id ++ numbers)
          (inputsOf (unseen numbers level')) :=
      unseen_inputsOf hmade' fun t ht => hexplored.inputs t (hmade' t ht)
    rw [← hsame] at hsame'
    have hmadeNext : ∀ t ∈ inputsOf (unseen numbers level), r.made t :=
      made_inputsOf fun t ht => hmade t (mem_of_mem_unseen ht)
    dsimp only
    split
    · next w' hscan' =>
      rw [hscan] at hscan'
      contradiction
    · next seen'' next hscan' =>
      rw [hscan] at hscan'
      obtain ⟨rfl, rfl⟩ := LevelResult.missed.inj hscan'
      by_cases hend : inputsOf level' = []
      · have hend' : inputsOf (unseen numbers level) = [] := by
          rw [inputsOf, List.flatMap_eq_nil_iff] at hend ⊢
          intro t ht
          rw [hsame] at ht
          exact hend t (mem_of_mem_unseen ht)
        rw [dif_pos hend', dif_pos hend]
      · have hlt := heightList_inputsOf_lt hend
        rw [dif_neg hend, ← searchLevels_eq_unfoldedSearch hmem hmadeNext
          (made_inputsOf hmade') hnext hsame'.symm]
        split
        · next hnil => rw [hnil, searchLevels_nil]
        · rfl
termination_by Tensor.heightList level'

end

/-- **Sharing does not change what is found.** In a register, the workload nearest to some
outputs is the one that is found when the graph is taken as a tree. -/
theorem nearestWorkload?_eq_unfoldedSearch (r : Register) {outputs : List Tensor}
    (hmade : ∀ t ∈ outputs, r.made t) : nearestWorkload? outputs = unfoldedSearch outputs := by
  have hempty : ∀ i, i ∈ (∅ : Std.HashSet Nat) ↔ i ∈ ([] : List Nat) := by
    intro i
    constructor
    · intro h
      exact absurd h Std.HashSet.not_mem_empty
    · intro h
      exact absurd h List.not_mem_nil
  have hexplored : Explored r [] outputs :=
    ⟨fun t _ h => absurd h List.not_mem_nil, fun t _ h => absurd h List.not_mem_nil⟩
  exact searchLevels_eq_unfoldedSearch hempty hmade hmade hexplored rfl

end TensorLowering
