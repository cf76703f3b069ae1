import Std.Data.HashSet.Lemmas
import TensorLowering.Tensor.Basic

/-!
# The workload behind a list of tensors

`nearestWorkload?` looks for the workload annotation nearest to some output tensors. It goes
through the graph level by level: the outputs, then what they are computed from, and so on. Each
tensor is looked at once, and the first annotation met is the answer.

Each level consists of inputs of the level before, so its `height` is smaller; the search ends
for that reason.
-/

namespace TensorLowering

namespace Tensor

mutual

/-- The length of the longest path from a tensor down to what it is computed from. -/
def height : Tensor → Nat
  | .placeholder .. => 0
  | .computed _ _ _ _ _ inputs _ => heightList inputs + 1

/-- The largest height among several tensors. -/
def heightList : List Tensor → Nat
  | [] => 0
  | t :: ts => max t.height (heightList ts)

end

/-- A list is as high as its highest tensor. -/
theorem height_le_heightList {t : Tensor} {ts : List Tensor} (h : t ∈ ts) :
    t.height ≤ heightList ts := by
  induction ts with
  | nil => cases h
  | cons u us ih =>
    rw [heightList]
    rcases List.mem_cons.mp h with rfl | h
    · exact Nat.le_max_left _ _
    · exact Nat.le_trans (ih h) (Nat.le_max_right _ _)

/-- It is no higher. -/
theorem heightList_le {n : Nat} {ts : List Tensor} (h : ∀ t ∈ ts, t.height ≤ n) :
    heightList ts ≤ n := by
  induction ts with
  | nil => exact Nat.zero_le n
  | cons u us ih =>
    rw [heightList]
    exact Nat.max_le.mpr ⟨h u (.head _), ih fun t ht => h t (.tail _ ht)⟩

/-- Inputs are less high. -/
theorem height_lt_of_mem_inputs {s t : Tensor} (h : s ∈ t.inputs) : s.height < t.height := by
  cases t with
  | placeholder => cases h
  | computed _ _ _ _ _ inputs _ =>
    rw [height]
    exact Nat.lt_succ_of_le (height_le_heightList h)

end Tensor

/-- What came of looking through one level of the graph. -/
inductive LevelResult where
  /-- An annotation was met. -/
  | found (w : Workload)
  /-- There is none: the numbers of the tensors looked at so far, and the next level. -/
  | missed (seen : Std.HashSet Nat) (next : List Tensor)

/-- Look through a level, from left to right, passing over tensors seen before. The next level
collects the inputs in the order they are met. -/
def scanLevel (seen : Std.HashSet Nat) (next : List Tensor) : List Tensor → LevelResult
  | [] => .missed seen next
  | t :: ts =>
    if t.id ∈ seen then scanLevel seen next ts
    else
      match t.workload? with
      | some w => .found w
      | none => scanLevel (seen.insert t.id) (next ++ t.inputs) ts

/-- The next level holds what was collected before and inputs of the level looked through. -/
private theorem mem_next_of_scanLevel {seen seen' : Std.HashSet Nat} {next next' ts : List Tensor}
    (h : scanLevel seen next ts = .missed seen' next') {s : Tensor} (hs : s ∈ next') :
    s ∈ next ∨ ∃ t ∈ ts, s ∈ t.inputs := by
  induction ts generalizing seen next with
  | nil =>
    rw [scanLevel] at h
    injection h with _ h
    exact .inl (h ▸ hs)
  | cons t ts ih =>
    rw [scanLevel] at h
    split at h
    · rcases ih h with h | ⟨u, hu, hsu⟩
      · exact .inl h
      · exact .inr ⟨u, .tail _ hu, hsu⟩
    · split at h
      · cases h
      · rcases ih h with h | ⟨u, hu, hsu⟩
        · rcases List.mem_append.mp h with h | h
          · exact .inl h
          · exact .inr ⟨t, .head _, h⟩
        · exact .inr ⟨u, .tail _ hu, hsu⟩

/-- A next level that is not empty is lower than the level it was collected from. -/
theorem heightList_next_lt {seen seen' : Std.HashSet Nat} {next ts : List Tensor}
    (h : scanLevel seen [] ts = .missed seen' next) (hne : next ≠ []) :
    Tensor.heightList next < Tensor.heightList ts := by
  have below : ∀ s ∈ next, s.height < Tensor.heightList ts := fun s hs => by
    rcases mem_next_of_scanLevel h hs with hs | ⟨t, ht, hst⟩
    · cases hs
    · exact Nat.lt_of_lt_of_le (Tensor.height_lt_of_mem_inputs hst)
        (Tensor.height_le_heightList ht)
  obtain ⟨s, hs⟩ := List.exists_mem_of_ne_nil next hne
  have pos : 0 < Tensor.heightList ts := Nat.lt_of_le_of_lt (Nat.zero_le _) (below s hs)
  exact Nat.lt_of_le_of_lt (Tensor.heightList_le fun s hs => Nat.le_pred_of_lt (below s hs))
    (Nat.pred_lt_of_lt pos)

/-- Search the graph below a level, passing over the tensors already seen. -/
def searchLevels (seen : Std.HashSet Nat) (level : List Tensor) : Option Workload :=
  match _h : scanLevel seen [] level with
  | .found w => some w
  | .missed seen' next =>
    if _hne : next = [] then none
    else searchLevels seen' next
termination_by Tensor.heightList level
decreasing_by exact heightList_next_lt _h _hne

/-- The annotation nearest to some outputs; of several at the same distance, the first one in
the order in which the graph is gone through. -/
def nearestWorkload? (outputs : List Tensor) : Option Workload := searchLevels ∅ outputs

end TensorLowering
