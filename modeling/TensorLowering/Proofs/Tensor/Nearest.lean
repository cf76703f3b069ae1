import TensorLowering.Proofs.Graph.CallOrder
import TensorLowering.Proofs.Tensor.Unfolding
import Mathlib.Data.Nat.Find
import Mathlib.Order.Bounds.Basic

/-!
# The nearest workload

`nearestWorkload?` remembers which tensors it looked at, and not which ones it is going to look at:
a level may repeat a tensor, or hold one that was looked at on an earlier level. Nevertheless it
looks at the tensors in breadth-first order, each at its first discovery
(`nearestWorkload?_eq_findSome?`). The invariant of a level is that the tensors looked at so far
have no annotation and that their inputs are among what the level adds to them.

The breadth-first order itself is `breadthFirst`: it begins with the outputs, and whenever the
inputs of all that was found are put behind it, what is found is one step further away. So it lists
what the outputs are computed from, each tensor once and the nearer ones before the others
(`breadthFirst_spec`). The annotation that is found is therefore one of least distance, and the
first of these in the order (`nearestWorkload?_nearest`).
-/

namespace TensorLowering

/-! ### Breadth-first order -/

/-- Put what several tensors are computed from behind them, as far as it is not there. -/
def noteInputs (found : List Tensor) : List Tensor :=
  noteAllBy Tensor.id found (inputsOf found)

/-- What is at most some number of steps away from some outputs, in the order of discovery: outputs
from left to right, then the inputs of what was discovered, from left to right. -/
def discovered (outputs : List Tensor) (steps : Nat) : List Tensor :=
  noteInputs^[steps] (noteAllBy Tensor.id [] outputs)

/-- The tensors that some outputs are computed from, in breadth-first order. No tensor is further
away than the graph is high. -/
def breadthFirst (outputs : List Tensor) : List Tensor :=
  discovered outputs (Tensor.heightList outputs)

/-! ### The search follows the order -/

private theorem noteAllBy_eq_append_unseen (found ts : List Tensor) :
    noteAllBy Tensor.id found ts = found ++ unseen (found.map Tensor.id) ts := by
  induction ts generalizing found with
  | nil => exact (List.append_nil found).symm
  | cons t ts ih =>
    have hcons : noteAllBy Tensor.id found (t :: ts) =
        noteAllBy Tensor.id (noteBy Tensor.id found t) ts := rfl
    rw [hcons, ih, unseen, noteBy]
    split
    · rfl
    · rw [List.append_assoc, List.singleton_append]
      refine congrArg (found ++ t :: ·) (unseen_congr ?_ ts)
      intro i
      rw [List.map_append, List.map_singleton, List.mem_append, List.mem_singleton, List.mem_cons]
      exact or_comm

private theorem prefix_noteInputs (found : List Tensor) (n : Nat) :
    found <+: noteInputs^[n] found := by
  induction n with
  | zero => exact List.prefix_refl found
  | succ n ih =>
    rw [Function.iterate_succ_apply']
    exact ih.trans (prefix_noteAllBy Tensor.id _ _)

private theorem prefix_findSome? {found found' : List Tensor} {w : Workload} (h : found <+: found')
    (hw : found.findSome? Tensor.workload? = some w) :
    found'.findSome? Tensor.workload? = some w := by
  obtain ⟨rest, rfl⟩ := h
  rw [List.findSome?_append, hw, Option.some_or]

/-- What is known before a level is looked through: the tensors looked at so far have no
annotation, and each of their inputs is one of them or stands in the level. -/
structure LookedAt (done level : List Tensor) : Prop where
  workload : ∀ t ∈ done, t.workload? = none
  inputs : ∀ t ∈ inputsOf done, t.id ∈ (noteAllBy Tensor.id done level).map Tensor.id

section

variable {done level : List Tensor}

/-- Behind what was looked at on two levels, the inputs of the second one are all that is new. -/
private theorem LookedAt.noteInputs_eq (h : LookedAt done level) :
    noteInputs (noteAllBy Tensor.id done level) =
      noteAllBy Tensor.id (noteAllBy Tensor.id done level)
        (inputsOf (unseen (done.map Tensor.id) level)) := by
  have hsplit : inputsOf (noteAllBy Tensor.id done level) =
      inputsOf done ++ inputsOf (unseen (done.map Tensor.id) level) := by
    rw [noteAllBy_eq_append_unseen, inputsOf, List.flatMap_append]
    rfl
  rw [noteInputs, hsplit, noteAllBy_append, noteAllBy_of_mem h.inputs]

/-- From one level to the next, if nothing was found. -/
theorem LookedAt.next (h : LookedAt done level)
    (hnone : (unseen (done.map Tensor.id) level).findSome? Tensor.workload? = none) :
    LookedAt (noteAllBy Tensor.id done level)
      (inputsOf (unseen (done.map Tensor.id) level)) where
  workload t ht := by
    rw [noteAllBy_eq_append_unseen, List.mem_append] at ht
    obtain ht | ht := ht
    · exact h.workload t ht
    · exact List.findSome?_eq_none_iff.mp hnone t ht
  inputs t ht := by
    rw [noteAllBy_eq_append_unseen, inputsOf, List.flatMap_append, List.mem_append] at ht
    obtain ht | ht := ht
    · exact List.map_subset _ (prefix_noteAllBy _ _ _).subset (h.inputs t ht)
    · exact key_mem_noteAllBy ht _

/-- The search below a level looks at what is new in breadth-first order. -/
private theorem searchLevels_eq_findSome? {seen : Std.HashSet Nat}
    (hseen : ∀ i, i ∈ seen ↔ i ∈ done.map Tensor.id) (h : LookedAt done level) {n : Nat}
    (hn : Tensor.heightList level ≤ n) :
    searchLevels seen level =
      (noteInputs^[n] (noteAllBy Tensor.id done level)).findSome? Tensor.workload? := by
  induction n using Nat.strong_induction_on generalizing seen done level with
  | h n ih =>
    have hscan := scanLevel_eq hseen [] level
    have hnote := noteAllBy_eq_append_unseen done level
    have hdone : done.findSome? Tensor.workload? = none :=
      List.findSome?_eq_none_iff.mpr h.workload
    rw [searchLevels]
    cases hw : (unseen (done.map Tensor.id) level).findSome? Tensor.workload? with
    | some w =>
      rw [hw] at hscan
      have hfound : (noteAllBy Tensor.id done level).findSome? Tensor.workload? = some w := by
        rw [hnote, List.findSome?_append, hdone, hw, Option.none_or]
      rw [prefix_findSome? (prefix_noteInputs _ n) hfound]
      dsimp only at hscan
      split
      · next w' hscan' =>
        rw [hscan] at hscan'
        exact congrArg some (LevelResult.found.inj hscan').symm
      · next seen' next hscan' =>
        rw [hscan] at hscan'
        cases hscan'
    | none =>
      rw [hw] at hscan
      obtain ⟨seen', hscan, hseen'⟩ := hscan
      rw [List.nil_append] at hscan
      split
      · next w' hscan' =>
        rw [hscan] at hscan'
        cases hscan'
      · next seen'' next hscan' =>
        rw [hscan] at hscan'
        obtain ⟨rfl, rfl⟩ := LevelResult.missed.inj hscan'
        split
        · next hnil =>
          -- nothing is new from here on
          have hfixed : noteInputs (noteAllBy Tensor.id done level) =
              noteAllBy Tensor.id done level := by
            rw [h.noteInputs_eq, hnil]
            rfl
          rw [Function.iterate_fixed hfixed, hnote, List.findSome?_append, hdone, hw,
            Option.none_or]
        · next hne =>
          have hlt := heightList_next_lt hscan hne
          obtain ⟨m, rfl⟩ : ∃ m, n = m + 1 := ⟨n - 1, by omega⟩
          have hsame : ∀ i, i ∈ seen' ↔ i ∈ (noteAllBy Tensor.id done level).map Tensor.id := by
            intro i
            rw [hseen' i, hnote, List.map_append, List.mem_append, List.mem_append]
            exact or_comm
          have hle : Tensor.heightList (inputsOf (unseen (done.map Tensor.id) level)) ≤ m := by
            omega
          rw [ih m (Nat.lt_succ_self m) hsame (h.next hw) hle, Function.iterate_succ_apply,
            h.noteInputs_eq]

end

/-- **The search goes through the graph in breadth-first order** and finds the first annotation. -/
theorem nearestWorkload?_eq_findSome? (outputs : List Tensor) :
    nearestWorkload? outputs = (breadthFirst outputs).findSome? Tensor.workload? := by
  have hempty : ∀ i, i ∈ (∅ : Std.HashSet Nat) ↔ i ∈ ([] : List Tensor).map Tensor.id := by
    intro i
    constructor
    · intro h
      exact absurd h Std.HashSet.not_mem_empty
    · intro h
      exact absurd h List.not_mem_nil
  have hstart : LookedAt [] outputs :=
    ⟨fun t h => absurd h List.not_mem_nil, fun t h => absurd h List.not_mem_nil⟩
  exact searchLevels_eq_findSome? hempty hstart (Nat.le_refl _)

/-! ### Distances -/

/-- A tensor is reached from some outputs by going so many steps down, each from a tensor to one of
those it is computed from. -/
inductive Tensor.Reached (outputs : List Tensor) : Nat → Tensor → Prop where
  | output {t : Tensor} : t ∈ outputs → Tensor.Reached outputs 0 t
  | input {n : Nat} {t u : Tensor} :
      Tensor.Reached outputs n t → u ∈ t.inputs → Tensor.Reached outputs (n + 1) u

/-- The distance of a tensor from some outputs is the least number of steps down to it. -/
def Tensor.Distance (outputs : List Tensor) (t : Tensor) (n : Nat) : Prop :=
  IsLeast {m | Tensor.Reached outputs m t} n

/-- Below some outputs, the number of a tensor stands for one tensor. -/
def Tensor.Graph (outputs : List Tensor) : Prop :=
  ∀ m n t u, Tensor.Reached outputs m t → Tensor.Reached outputs n u → t.id = u.id → t = u

/-- Tensors that were made one after the other form a graph. -/
theorem Register.graph (r : Register) {outputs : List Tensor} (h : ∀ t ∈ outputs, r.made t) :
    Tensor.Graph outputs := by
  have hmade {n : Nat} {t : Tensor} (ht : Tensor.Reached outputs n t) : r.made t := by
    induction ht with
    | output ht => exact h _ ht
    | input _ hu ih => exact r.made_inputs _ _ ih hu
  intro m n t u ht hu
  exact r.id_inj t u (hmade ht) (hmade hu)

section

variable {outputs : List Tensor} {m n : Nat} {t u : Tensor}

/-- Every step goes down. -/
private theorem Tensor.Reached.height_le (h : Tensor.Reached outputs n t) :
    n + t.height ≤ Tensor.heightList outputs := by
  induction h with
  | output ht =>
    have hle := Tensor.height_le_heightList ht
    omega
  | input _ hu ih =>
    have hlt := Tensor.height_lt_of_mem_inputs hu
    omega

private theorem Tensor.Reached.exists_distance (h : Tensor.Reached outputs n t) :
    ∃ m ≤ n, Tensor.Distance outputs t m := by
  classical
  have hex : ∃ m, Tensor.Reached outputs m t := ⟨n, h⟩
  exact ⟨Nat.find hex, Nat.find_min' hex h, Nat.find_spec hex, fun m hm => Nat.find_min' hex hm⟩

private theorem discovered_succ (outputs : List Tensor) (n : Nat) :
    discovered outputs (n + 1) = noteInputs (discovered outputs n) :=
  Function.iterate_succ_apply' _ _ _

/-- What is discovered is no further away than that. -/
theorem exists_reached_of_mem_discovered (h : t ∈ discovered outputs n) :
    ∃ m ≤ n, Tensor.Reached outputs m t := by
  induction n generalizing t with
  | zero =>
    obtain h | h := mem_noteAllBy h
    · exact absurd h List.not_mem_nil
    · exact ⟨0, Nat.le_refl 0, .output h⟩
  | succ n ih =>
    rw [discovered_succ] at h
    obtain h | h := mem_noteAllBy h
    · obtain ⟨m, hm, ht⟩ := ih h
      exact ⟨m, Nat.le_succ_of_le hm, ht⟩
    · obtain ⟨u, hu, htu⟩ := List.mem_flatMap.mp h
      obtain ⟨m, hm, hu⟩ := ih hu
      exact ⟨m + 1, Nat.succ_le_succ hm, .input hu htu⟩

private theorem prefix_discovered (outputs : List Tensor) (h : m ≤ n) :
    discovered outputs m <+: discovered outputs n := by
  obtain ⟨k, rfl⟩ := Nat.exists_eq_add_of_le h
  rw [discovered, discovered, Nat.add_comm, Function.iterate_add_apply]
  exact prefix_noteInputs _ k

/-- Everything that is no further away is discovered. -/
private theorem Tensor.Reached.mem_discovered (hg : Tensor.Graph outputs)
    (h : Tensor.Reached outputs m t) (hmn : m ≤ n) : t ∈ discovered outputs n := by
  -- a tensor of this number is listed, and there is only one
  have hlisted {i : Nat} {u : Tensor} (hu : Tensor.Reached outputs i u)
      (hmem : u.id ∈ (discovered outputs i).map Tensor.id) : u ∈ discovered outputs i := by
    obtain ⟨v, hv, hid⟩ := List.mem_map.mp hmem
    obtain ⟨j, _, hv'⟩ := exists_reached_of_mem_discovered hv
    rwa [← hg j i v u hv' hu hid]
  refine (prefix_discovered outputs hmn).subset ?_
  clear hmn
  induction h with
  | output ht => exact hlisted (.output ht) (key_mem_noteAllBy ht [])
  | input ht hu ih =>
    refine hlisted (.input ht hu) ?_
    rw [discovered_succ]
    exact key_mem_noteAllBy (List.mem_flatMap.mpr ⟨_, ih, hu⟩) _

private theorem nodup_discovered (outputs : List Tensor) (n : Nat) :
    ((discovered outputs n).map Tensor.id).Nodup := by
  induction n with
  | zero => exact nodup_noteAllBy_nil Tensor.id outputs
  | succ n ih =>
    rw [discovered_succ]
    exact nodup_noteAllBy ih _

/-- The first of two tensors is no further away from some outputs than the second one. -/
def Tensor.NoFurther (outputs : List Tensor) (t u : Tensor) : Prop :=
  ∀ m n, Tensor.Distance outputs t m → Tensor.Distance outputs u n → m ≤ n

/-- What is discovered first is no further away: it is among what is discovered in as many steps
as lead to the other. -/
private theorem pairwise_discovered (hg : Tensor.Graph outputs) (n : Nat) :
    (discovered outputs n).Pairwise (Tensor.NoFurther outputs) := by
  rw [List.pairwise_iff_getElem]
  intro i j hi hj hij d e hd he
  obtain ⟨k, hk, hreached⟩ := exists_reached_of_mem_discovered (List.getElem_mem hj)
  have hen : e ≤ n := Nat.le_trans (he.2 hreached) hk
  have hstill := prefix_discovered outputs hen
  -- the second tensor stands among those at its distance, and nowhere else
  obtain ⟨j', hj', heq⟩ :=
    List.getElem_of_mem (Tensor.Reached.mem_discovered hg he.1 (Nat.le_refl e))
  rw [hstill.getElem hj'] at heq
  have hj : j' = j := (List.Nodup.of_map _ (nodup_discovered outputs n)).getElem_inj_iff.mp heq
  have hi' : i < (discovered outputs e).length := by omega
  have hmem := List.getElem_mem hi'
  rw [hstill.getElem hi'] at hmem
  obtain ⟨l, hl, hreached⟩ := exists_reached_of_mem_discovered hmem
  exact Nat.le_trans (hd.2 hreached) hl

/-- A list is in breadth-first order below some outputs if it holds what they are computed from,
each tensor once, and the nearer tensors before the others. -/
structure BreadthFirstOrder (outputs order : List Tensor) : Prop where
  nodup : (order.map Tensor.id).Nodup
  mem_iff : ∀ t, t ∈ order ↔ ∃ n, Tensor.Reached outputs n t
  sorted : order.Pairwise (Tensor.NoFurther outputs)

private theorem breadthFirst_spec (hg : Tensor.Graph outputs) :
    BreadthFirstOrder outputs (breadthFirst outputs) where
  nodup := nodup_discovered outputs _
  mem_iff t := by
    constructor
    · intro h
      obtain ⟨n, _, ht⟩ := exists_reached_of_mem_discovered h
      exact ⟨n, ht⟩
    · rintro ⟨n, ht⟩
      exact ht.mem_discovered hg (Nat.le_trans (Nat.le_add_right _ _) ht.height_le)
  sorted := pairwise_discovered hg _

end

/-! ### The nearest annotation -/

/-- **The search finds the nearest annotation.** Nothing is found exactly when no tensor that the
outputs are computed from is annotated. Otherwise the workload is that of an annotated tensor of
least distance, and in breadth-first order none before it is annotated. -/
theorem nearestWorkload?_nearest {outputs : List Tensor} (hg : Tensor.Graph outputs) :
    BreadthFirstOrder outputs (breadthFirst outputs) ∧
    (nearestWorkload? outputs = none ↔
      ∀ n t, Tensor.Reached outputs n t → t.workload? = none) ∧
    ∀ w, nearestWorkload? outputs = some w → ∃ before t after n,
      breadthFirst outputs = before ++ t :: after ∧ t.workload? = some w ∧
      Tensor.Distance outputs t n ∧
      (∀ m u, Tensor.Reached outputs m u → u.workload? ≠ none → n ≤ m) ∧
      ∀ u ∈ before, u.workload? = none := by
  have horder := breadthFirst_spec hg
  rw [nearestWorkload?_eq_findSome?]
  refine ⟨horder, ?_, ?_⟩
  · rw [List.findSome?_eq_none_iff]
    constructor
    · intro h n t ht
      exact h t ((horder.mem_iff t).mpr ⟨n, ht⟩)
    · intro h t ht
      obtain ⟨n, ht⟩ := (horder.mem_iff t).mp ht
      exact h n t ht
  · intro w hw
    obtain ⟨before, t, after, hsplit, ht, hbefore⟩ := List.findSome?_eq_some_iff.mp hw
    have hmem : t ∈ breadthFirst outputs := by
      rw [hsplit]
      exact List.mem_append_right _ List.mem_cons_self
    obtain ⟨k, hk⟩ := (horder.mem_iff t).mp hmem
    obtain ⟨n, _, hn⟩ := hk.exists_distance
    refine ⟨before, t, after, n, hsplit, ht, hn, ?_, hbefore⟩
    intro m u hu hannotated
    obtain ⟨m', hm', hdistance⟩ := hu.exists_distance
    have hmem : u ∈ before ++ t :: after := by
      rw [← hsplit]
      exact (horder.mem_iff u).mpr ⟨m, hu⟩
    have hsorted := horder.sorted
    rw [hsplit, List.pairwise_append, List.pairwise_cons] at hsorted
    obtain hmem | hmem := List.mem_append.mp hmem
    · exact absurd (hbefore u hmem) hannotated
    · obtain rfl | hmem := List.mem_cons.mp hmem
      · exact hn.2 hu
      · exact Nat.le_trans (hsorted.2.1.1 u hmem n m' hn hdistance) hm'

/-! ### An example -/

namespace TwoKernels

def data : Tensor := .placeholder 0 "data" [] (.float 32)

def product : Tensor := .computed 1 "T_dense" [] (.float 32) "dense" [data] (some ⟨"dense", []⟩)

def convolution : Tensor := .computed 2 "T_conv" [] (.float 32) "conv" [product] (some ⟨"conv", []⟩)

def relu : Tensor := .computed 3 "T_relu" [] (.float 32) "elemwise" [convolution] none

/-- The sum takes both kernels, the convolution first, but from the product it is only one step
away. -/
def sum : Tensor := .computed 4 "T_add" [] (.float 32) "elemwise" [relu, product] none

private theorem graph : Tensor.Graph [sum] := by
  let all := [data, product, convolution, relu, sum]
  have hinputs : ∀ t ∈ all, ∀ u ∈ t.inputs, u ∈ all := by
    simp [all, data, product, convolution, relu, sum, Tensor.inputs]
  have hreached {n : Nat} {t : Tensor} (h : Tensor.Reached [sum] n t) : t ∈ all := by
    induction h with
    | output h => simp_all [all]
    | input _ hu ih => exact hinputs _ ih _ hu
  have hnodup : (all.map Tensor.id).Nodup := by decide
  intro m n t u ht hu hid
  exact List.inj_on_of_nodup_map hnodup (hreached ht) (hreached hu) hid

/-- The workload of the product is found, as the convolution is further away. -/
theorem nearestWorkload?_sum : Tensor.Graph [sum] ∧
    nearestWorkload? [sum] = some ⟨"dense", []⟩ ∧
    ∃ t n, t.workload? = some ⟨"dense", []⟩ ∧ Tensor.Distance [sum] t n ∧
      ∀ m u, Tensor.Reached [sum] m u → u.workload? ≠ none → n ≤ m := by
  have hfound : nearestWorkload? [sum] = some ⟨"dense", []⟩ := by
    rw [nearestWorkload?_eq_findSome?]
    rfl
  obtain ⟨_, _, hnearest⟩ := nearestWorkload?_nearest graph
  obtain ⟨_, t, _, n, _, ht, hn, hleast, _⟩ := hnearest _ hfound
  exact ⟨graph, hfound, t, n, ht, hn, hleast⟩

end TwoKernels

end TensorLowering
