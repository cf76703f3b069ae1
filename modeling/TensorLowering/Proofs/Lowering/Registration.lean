import TensorLowering.Proofs.Lowering.Quiet
import Mathlib.Data.List.FinRange
import Mathlib.Data.List.Induction

/-!
# What a strategy registers

A strategy registers implementations one after the other, each under a condition or under none.
The offer keeps those of one condition together, so the order of registration is regrouped: the
conditions stand in the order in which they were first met, and under each one the
implementations stand in the order in which they were registered (`Offer.registered_eq`).

Resolution drops the groups whose condition is not proved. What is left is told by the positions of
the registrations (`Offer.positions`): they are those under a condition that holds, sorted by where
the condition was first registered and then by themselves (`candidates_registered`).
-/

namespace TensorLowering

variable {σ : Type}

/-- What an implementation is registered under: a conjunction of clauses, or nothing. -/
abbrev Condition : Type := Option (List IndexExpr)

/-- An implementation with its condition. -/
abbrev Registration (σ : Type) : Type := Condition × Implementation σ

/-- There is no condition, or each of its clauses is proved without knowing any variable. -/
def Condition.Holds (condition : Condition) : Prop :=
  ∀ clauses, condition = some clauses → ∀ e ∈ clauses, e.proves [] = true

instance : DecidablePred Condition.Holds
  | none => isTrue fun _ h => nomatch h
  | some clauses => decidable_of_iff (∀ e ∈ clauses, e.proves [] = true) (by simp [Condition.Holds])

private theorem Specialization.applies_iff (s : Specialization σ) :
    s.applies = true ↔ Condition.Holds s.condition := by
  obtain ⟨condition, is⟩ := s
  cases condition <;> simp [applies, Condition.Holds]

namespace Offer

/-- The offer of a strategy that registers implementations in this order. -/
def registered (regs : List (Registration σ)) : Offer σ :=
  regs.foldl (fun o reg => o.add reg.1 reg.2) .empty

/-- The conditions that were registered, in the order in which they were first met. -/
def conditions (regs : List (Registration σ)) : List Condition := (regs.map (·.1)).eraseDups

/-- The implementations that were registered under a condition. -/
def under (regs : List (Registration σ)) (condition : Condition) : List (Implementation σ) :=
  (regs.filter fun reg => reg.1 = condition).map (·.2)

variable {regs : List (Registration σ)} {condition : Condition}

private theorem registered_concat (regs : List (Registration σ)) (reg : Registration σ) :
    registered (regs ++ [reg]) = (registered regs).add reg.1 reg.2 := by
  simp [registered]

private theorem mem_conditions : condition ∈ conditions regs ↔ ∃ reg ∈ regs, reg.1 = condition := by
  rw [conditions, List.mem_eraseDups, List.mem_map]

/-- A registration adds its condition, unless the condition was met before. -/
private theorem conditions_concat (regs : List (Registration σ)) (reg : Registration σ) :
    conditions (regs ++ [reg]) =
      if reg.1 ∈ conditions regs then conditions regs else conditions regs ++ [reg.1] := by
  have hmem : reg.1 ∈ conditions regs ↔ reg.1 ∈ regs.map (·.1) := List.mem_eraseDups
  by_cases h : reg.1 ∈ regs.map (·.1)
  · rw [if_pos (hmem.mpr h)]
    simp [conditions, List.eraseDups_append, List.removeAll, h]
  · rw [if_neg fun hc => h (hmem.mp hc)]
    simp [conditions, List.eraseDups_append, List.eraseDups_cons, List.removeAll, h]

/-- Conditions are listed by the position at which they were first met. -/
private theorem pairwise_conditions (regs : List (Registration σ)) :
    (conditions regs).Pairwise fun c d =>
      (regs.map (·.1)).idxOf c < (regs.map (·.1)).idxOf d := by
  -- by the last registration, which leaves the first positions of the conditions as they are
  induction regs using List.reverseRecOn with
  | nil => exact .nil
  | append_singleton regs reg ih =>
    have hold (c : Condition) (hc : c ∈ conditions regs) :
        ((regs ++ [reg]).map (·.1)).idxOf c = (regs.map (·.1)).idxOf c := by
      rw [List.map_append]
      exact List.idxOf_append_of_mem (List.mem_eraseDups.mp hc)
    have hmono : (conditions regs).Pairwise fun c d =>
        ((regs ++ [reg]).map (·.1)).idxOf c < ((regs ++ [reg]).map (·.1)).idxOf d := by
      refine ih.imp_of_mem fun {c d} hc hd hlt => ?_
      rwa [hold c hc, hold d hd]
    rw [conditions_concat]
    split
    · exact hmono
    · next hnew =>
      rw [List.pairwise_append]
      refine ⟨hmono, List.pairwise_singleton _ _, fun c hc d hd => ?_⟩
      obtain rfl := List.mem_singleton.mp hd
      -- the new condition stands behind all that were met before
      have hc' : c ∈ regs.map (·.1) := List.mem_eraseDups.mp hc
      have hd' : reg.1 ∉ regs.map (·.1) := fun h => hnew (List.mem_eraseDups.mpr h)
      rw [hold c hc, List.map_append, List.idxOf_append_of_notMem hd']
      have := List.idxOf_lt_length_of_mem hc'
      omega

private theorem nodup_conditions (regs : List (Registration σ)) : (conditions regs).Nodup := by
  refine (pairwise_conditions regs).imp fun {c d} hlt heq => ?_
  subst heq
  exact Nat.lt_irrefl _ hlt

private theorem under_concat (regs : List (Registration σ)) (reg : Registration σ)
    (condition : Condition) : under (regs ++ [reg]) condition =
      if condition = reg.1 then under regs condition ++ [reg.2] else under regs condition := by
  by_cases h : condition = reg.1
  · simp [under, h]
  · simp [under, h, Ne.symm h]

private theorem under_eq_nil (h : condition ∉ conditions regs) : under regs condition = [] := by
  rw [under, List.map_eq_nil_iff, List.filter_eq_nil_iff]
  intro reg hreg heq
  exact h (mem_conditions.mpr ⟨reg, hreg, of_decide_eq_true heq⟩)

/-- An implementation is put at the end of the group of its condition, or into a group of its own
at the end. -/
private theorem insert_map (c : Condition) (i : Implementation σ)
    (f : Condition → List (Implementation σ)) {cs : List Condition} (hcs : cs.Nodup) :
    insert c i (cs.map fun d => ⟨d, f d⟩) =
      if c ∈ cs then cs.map fun d => ⟨d, if d = c then f d ++ [i] else f d⟩
      else cs.map (fun d => ⟨d, f d⟩) ++ [⟨c, [i]⟩] := by
  -- the insertion stops at the first group of the condition, and there is no other one
  induction cs with
  | nil => simp [insert]
  | cons d cs ih =>
    obtain ⟨hd, hcs⟩ := List.nodup_cons.mp hcs
    rw [List.map_cons, insert]
    by_cases hdc : d = c
    · subst hdc
      have hrest : cs.map (fun e => (⟨e, if e = d then f e ++ [i] else f e⟩ : Specialization σ)) =
          cs.map fun e => ⟨e, f e⟩ := by
        refine List.map_congr_left fun e he => ?_
        rw [if_neg fun heq : e = d => hd (heq ▸ he)]
      simp [hrest]
    · have hcd : c ≠ d := Ne.symm hdc
      rw [if_neg hdc, ih hcs]
      by_cases hc : c ∈ cs <;> simp [hc, hcd, hdc]

/-- **The groups of an offer**: one for each condition, in the order in which the conditions were
first met, with the implementations in the order in which they were registered. -/
theorem registered_eq (regs : List (Registration σ)) :
    registered regs = ⟨(conditions regs).map fun c => ⟨c, under regs c⟩⟩ := by
  induction regs using List.reverseRecOn with
  | nil => rfl
  | append_singleton regs reg ih =>
    rw [registered_concat, ih, add]
    congr 1
    rw [insert_map _ _ _ (nodup_conditions regs), conditions_concat]
    split
    · simp only [under_concat]
    · next hnew =>
      rw [List.map_append]
      congr 1
      · refine List.map_congr_left fun c hc => ?_
        rw [under_concat, if_neg fun heq : c = reg.1 => hnew (heq ▸ hc)]
      · simp [under_concat, under_eq_nil hnew]

/-! ### Resolution by positions -/

/-- The position at which the condition of a registration was first registered. -/
def firstMet (regs : List (Registration σ)) (i : Fin regs.length) : Nat :=
  (regs.map (·.1)).idxOf regs[i].1

/-- The order in which registrations are resolved: by where the condition was first registered, and
then by their own position. -/
def Precedes (regs : List (Registration σ)) (i j : Fin regs.length) : Prop :=
  firstMet regs i < firstMet regs j ∨ firstMet regs i = firstMet regs j ∧ i < j

/-- The positions of the registrations under a condition that holds, group by group. -/
def positions (regs : List (Registration σ)) : List (Fin regs.length) :=
  ((conditions regs).filter fun c => Condition.Holds c).flatMap fun c =>
    (List.finRange regs.length).filter fun i => regs[i].1 = c

private theorem mem_positions {i : Fin regs.length} :
    i ∈ positions regs ↔ Condition.Holds regs[i].1 := by
  have hmet : regs[i].1 ∈ conditions regs := mem_conditions.mpr ⟨regs[i], List.getElem_mem _, rfl⟩
  constructor
  · intro hi
    obtain ⟨c, hc, hi⟩ := List.mem_flatMap.mp hi
    rw [of_decide_eq_true (List.mem_filter.mp hi).2]
    exact of_decide_eq_true (List.mem_filter.mp hc).2
  · intro hi
    refine List.mem_flatMap.mpr ⟨regs[i].1, List.mem_filter.mpr ⟨hmet, decide_eq_true hi⟩, ?_⟩
    exact List.mem_filter.mpr ⟨List.mem_finRange i, decide_eq_true rfl⟩

private theorem pairwise_positions (regs : List (Registration σ)) :
    (positions regs).Pairwise (Precedes regs) := by
  rw [positions, List.pairwise_flatMap]
  constructor
  · intro c _
    refine ((List.pairwise_lt_finRange _).filter _).imp_of_mem fun {i j} hi hj hlt => ?_
    have hi' := of_decide_eq_true (List.mem_filter.mp hi).2
    have hj' := of_decide_eq_true (List.mem_filter.mp hj).2
    exact Or.inr ⟨by rw [firstMet, firstMet, hi', hj'], hlt⟩
  · refine ((pairwise_conditions regs).filter _).imp fun {c d} hlt i hi j hj => ?_
    have hi' := of_decide_eq_true (List.mem_filter.mp hi).2
    have hj' := of_decide_eq_true (List.mem_filter.mp hj).2
    refine Or.inl ?_
    rwa [firstMet, firstMet, hi', hj']

private theorem map_filter_finRange (regs : List (Registration σ)) (c : Condition) :
    ((List.finRange regs.length).filter fun i => regs[i].1 = c).map (fun i => regs[i].2) =
      under regs c := by
  have hget : (List.finRange regs.length).map (fun i => regs[i]) = regs :=
    List.map_get_finRange regs
  conv_rhs => rw [under, ← hget, List.filter_map, List.map_map]
  rfl

/-- What applies of an offer is what was registered at these positions. -/
private theorem applicable_registered (regs : List (Registration σ)) :
    (registered regs).applicable = (positions regs).map fun i => regs[i].2 := by
  have happlies (c : Condition) :
      (⟨c, under regs c⟩ : Specialization σ).applies = decide (Condition.Holds c) := by
    rw [Bool.eq_iff_iff, Specialization.applies_iff, decide_eq_true_eq]
  rw [applicable, registered_eq, positions, List.map_flatMap, List.filter_map, List.flatMap_map]
  simp only [map_filter_finRange, Function.comp_def, happlies]

end Offer

/-- **Resolution loses and duplicates nothing.** If the strategy of an operator registers
implementations in some order, the ones that can be considered are exactly those under a condition
that holds, each once, sorted by the position at which the condition was first registered and then
by their own position. What was registered under equal conditions is kept or dropped together. -/
theorem candidates_registered {c : Collaborators σ} {r : CallSite} {target : Target}
    {s : Strategy σ} {regs : List (Registration σ)} {m m' : Machine σ}
    (hs : c.strategy? m.own r.op = some s)
    (hrun : Action.withTarget target (s r.attrs r.inputs r.type target) m =
      (.ok (Offer.registered regs), m')) :
    ∃ ps : List (Fin regs.length),
      candidates c r target m = (.ok (ps.map fun i => regs[i].2), m') ∧
      (∀ i, i ∈ ps ↔ Condition.Holds regs[i].1) ∧ ps.Nodup ∧
      ps.Pairwise (Offer.Precedes regs) ∧
      ∀ i j : Fin regs.length, regs[i].1 = regs[j].1 → (i ∈ ps ↔ j ∈ ps) := by
  have hsorted := Offer.pairwise_positions regs
  refine ⟨Offer.positions regs, ?_, fun _ => Offer.mem_positions, ?_, hsorted, fun i j hij => ?_⟩
  · have hstrategy : c.strategy r.op m = (.ok s, m) := by
      rw [Collaborators.strategy, hs]
      rfl
    rw [← Offer.applicable_registered]
    exact Action.bind_eq_ok_iff.mpr ⟨s, m, hstrategy,
      Action.bind_eq_ok_iff.mpr ⟨_, m', hrun, rfl⟩⟩
  · refine hsorted.imp fun {i j} hlt heq => ?_
    subst heq
    rw [Offer.Precedes] at hlt
    omega
  · rw [Offer.mem_positions, Offer.mem_positions, hij]

/-- A strategy that registers under a guard that is proved, under none, under one that stays open,
and then under the first two again. -/
theorem candidates_registered_interleaved :
    let i (name : String) : Implementation Unit := ⟨name, 10, fun _ _ _ => return []⟩
    let large : List IndexExpr := [.compare .ge (.imm 32 .int64) (.imm 16 .int64)]
    let small : List IndexExpr := [.compare .lt (.var ⟨0, "n", .int32⟩) (.imm 16 .int32)]
    let regs : List (Registration Unit) :=
      [(some large, i "large"), (none, i "generic"), (some small, i "small"),
        (some large, i "unrolled"), (none, i "blocked")]
    let c : Collaborators Unit :=
      { Collaborators.pointwise with
        strategy? := fun _ _ => some fun _ _ _ _ => return Offer.registered regs }
    let r : CallSite := ⟨"dense", .empty, [], .tuple []⟩
    let m : Machine Unit := .initial () 0
    (candidates c r ⟨.llvm, .empty⟩ m).1 =
        .ok [i "large", i "unrolled", i "generic", i "blocked"] ∧
      ∃ ps : List (Fin regs.length),
        candidates c r ⟨.llvm, .empty⟩ m = (.ok (ps.map fun i => regs[i].2), m) ∧
        (∀ i, i ∈ ps ↔ Condition.Holds regs[i].1) ∧ ps.Nodup := by
  intro i large small regs c r m
  refine ⟨rfl, ?_⟩
  have hrun : Action.withTarget ⟨.llvm, .empty⟩ (return Offer.registered regs) m =
      (.ok (Offer.registered regs), m) := rfl
  obtain ⟨ps, hps, hmem, hnodup, -⟩ := candidates_registered (c := c) (r := r) rfl hrun
  exact ⟨ps, hps, hmem, hnodup⟩

end TensorLowering
