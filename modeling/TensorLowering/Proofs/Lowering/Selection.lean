import TensorLowering.Proofs.Lowering.Quiet
import TensorLowering.Proofs.Lowering.SideBySide
import Mathlib.Data.List.Induction

/-!
# Which candidate is chosen

Candidates are computed one after the other, each once, and after each one the workload behind its
outputs is noted. `Computes` says of two machines that the first leads to the second by computing
the candidates of a list in this way, and `Interrupted` that a candidate ended with a fault.

Among what was computed, the choice is the *first of the best* (`FirstBest`): nothing beats it, and
it beats all that stand before it. A known cost is beaten by a smaller one, and an unknown cost by
any that is known (`Cheaper`); with no cost known, a greater priority beats a smaller one. The folds
that choose find the first of the best because whatever beats something beats all that this was not
beaten by (`foldl_firstBest`).
-/

namespace TensorLowering

variable {σ : Type}

/-! ### The first of the best -/

section FirstBest

variable {α β : Type}

/-- At this position of a list stands the first of the best: nothing beats it, and it beats all that
stand before it. -/
structure FirstBest (beats : α → α → Prop) (l : List α) (k : Nat) (a : α) : Prop where
  here : l[k]? = some a
  unbeaten : ∀ b ∈ l, ¬beats b a
  beats : ∀ j b, j < k → l[j]? = some b → beats a b

/-- There is one first of the best. -/
theorem FirstBest.unique {R : α → α → Prop} {l : List α} {k k' : Nat} {a a' : α}
    (h : FirstBest R l k a) (h' : FirstBest R l k' a') : k = k' ∧ a = a' := by
  have hk : k = k' := by
    rcases Nat.lt_trichotomy k k' with hlt | heq | hlt
    · exact absurd (h'.beats k a hlt h.here) (h.unbeaten a' (List.mem_of_getElem? h'.here))
    · exact heq
    · exact absurd (h.beats k' a' hlt h'.here) (h'.unbeaten a (List.mem_of_getElem? h.here))
  subst hk
  exact ⟨rfl, Option.some.inj (h.here.symm.trans h'.here)⟩

/-- The first of the best by a property of the elements. -/
theorem FirstBest.map {R : β → β → Prop} (f : α → β) {l : List α} {k : Nat} {a : α}
    (h : FirstBest (fun b c => R (f b) (f c)) l k a) : FirstBest R (l.map f) k (f a) := by
  refine ⟨by rw [List.getElem?_map, h.here]; rfl, ?_, fun j b hj hb => ?_⟩
  · simpa using h.unbeaten
  · rw [List.getElem?_map] at hb
    obtain ⟨c, hc, rfl⟩ := Option.map_eq_some_iff.mp hb
    exact h.beats j c hj hc

/-- Going through a list and changing over to whatever is better leads to the first of the best. -/
theorem foldl_firstBest {R : α → α → Prop} {better : α → α → α}
    (hbetter : ∀ a b, R b a ∧ better a b = b ∨ ¬R b a ∧ better a b = a)
    (hasymm : ∀ a b, R a b → ¬R b a) (htrans : ∀ a b c, R a b → ¬R c b → R a c)
    (l : List α) (a : α) : ∃ k, FirstBest R (a :: l) k (l.foldl better a) := by
  induction l using List.reverseRecOn with
  | nil =>
    refine ⟨0, rfl, ?_, ?_⟩
    · intro b hb
      obtain rfl := List.mem_singleton.mp hb
      exact fun h => hasymm b b h h
    · intro j b hj
      omega
  | append_singleton l b ih =>
    obtain ⟨k, hk⟩ := ih
    rw [List.foldl_append, List.foldl_cons, List.foldl_nil, ← List.cons_append]
    have hlt : k < (a :: l).length := (List.getElem?_eq_some_iff.mp hk.here).1
    rcases hbetter (l.foldl better a) b with ⟨hbeats, heq⟩ | ⟨hbeats, heq⟩
    · -- the new element beats the best so far, and so it beats all before it
      rw [heq]
      have hall (c : α) (hc : c ∈ a :: l) : R b c := htrans b _ c hbeats (hk.unbeaten c hc)
      refine ⟨(a :: l).length, List.getElem?_concat_length, fun c hc => ?_, fun j c hj hc => ?_⟩
      · rcases List.mem_append.mp hc with hc | hc
        · exact hasymm b c (hall c hc)
        · obtain rfl := List.mem_singleton.mp hc
          exact fun h => hasymm c c h h
      · rw [List.getElem?_append_left hj] at hc
        exact hall c (List.mem_of_getElem? hc)
    · rw [heq]
      refine ⟨k, ?_, fun c hc => ?_, fun j c hj hc => ?_⟩
      · rw [List.getElem?_append_left hlt]
        exact hk.here
      · rcases List.mem_append.mp hc with hc | hc
        · exact hk.unbeaten c hc
        · obtain rfl := List.mem_singleton.mp hc
          exact hbeats
      · rw [List.getElem?_append_left (by omega)] at hc
        exact hk.beats j c hj hc

end FirstBest

/-- Going through a list and changing over to whatever has a greater key. -/
private theorem foldl_greatest {α : Type} (key : α → Int) {better : α → α → α}
    (hbetter : ∀ a b, better a b = if key a ≥ key b then a else b) (l : List α) (a : α) :
    ∃ k, FirstBest (fun b c => key c < key b) (a :: l) k (l.foldl better a) := by
  refine foldl_firstBest (fun a b => ?_) (fun a b h => by omega) (fun a b c h h' => by omega) l a
  rw [hbetter]
  split
  · exact Or.inr ⟨by omega, rfl⟩
  · exact Or.inl ⟨by omega, rfl⟩

/-- The first implementation has the greater priority. -/
def Outranks (i j : Implementation σ) : Prop := j.priority < i.priority

/-- What is first by priority outranks those before it and is outranked by none. -/
theorem firstByPriority?_firstBest {is : List (Implementation σ)} {i : Implementation σ}
    (h : firstByPriority? is = some i) : ∃ k, FirstBest Outranks is k i := by
  cases is with
  | nil => cases h
  | cons j js =>
    obtain rfl := Option.some.inj h
    exact foldl_greatest Implementation.priority (fun _ _ => rfl) js j

/-- The first cost is smaller; a cost that is not known is beaten by any that is. -/
def Cheaper : Option Binary64 → Option Binary64 → Prop
  | some x, some y => x.numericLt y = true
  | some _, none => True
  | none, _ => False

private theorem cheaper_asymm : ∀ x y, Cheaper x y → ¬Cheaper y x := by
  rintro (_ | x) (_ | y) h h' <;> simp only [Cheaper, Binary64.numericLt, decide_eq_true_eq] at h h'
  omega

private theorem cheaper_trans : ∀ x y z, Cheaper x y → ¬Cheaper z y → Cheaper x z := by
  rintro (_ | x) (_ | y) (_ | z) h h' <;>
    simp only [Cheaper, Binary64.numericLt, decide_eq_true_eq] at h h' ⊢
  · exact absurd trivial h'
  · omega

namespace Computed

private theorem byCost_cases (a b : Computed σ) :
    Cheaper b.cost a.cost ∧ byCost a b = b ∨ ¬Cheaper b.cost a.cost ∧ byCost a b = a := by
  unfold byCost Cheaper
  cases a.cost with
  | none => cases b.cost <;> simp
  | some x =>
    cases b.cost with
    | none => simp
    | some y => by_cases h : y.numericLt x = true <;> simp [h]

/-- What stands at this position is to be chosen: it is the first of the least cost if a cost is
known, and otherwise the first of the greatest priority. -/
def Chosen (all : List (Computed σ)) (k : Nat) (c : Computed σ) : Prop :=
  all[k]? = some c ∧
    (c.cost ≠ none ∧ FirstBest Cheaper (all.map (·.cost)) k c.cost ∨
      (∀ d ∈ all, d.cost = none) ∧
        FirstBest Outranks (all.map (·.implementation)) k c.implementation)

private theorem Chosen.unique {all : List (Computed σ)} {k k' : Nat} {c c' : Computed σ}
    (h : Chosen all k c) (h' : Chosen all k' c') : c = c' := by
  obtain ⟨hhere, hbest⟩ := h
  obtain ⟨hhere', hbest'⟩ := h'
  have hk : k = k' := by
    rcases hbest with ⟨hne, hbest⟩ | ⟨hnone, hbest⟩ <;>
      rcases hbest' with ⟨hne', hbest'⟩ | ⟨hnone', hbest'⟩
    · exact (hbest.unique hbest').1
    · exact absurd (hnone' c (List.mem_of_getElem? hhere)) hne
    · exact absurd (hnone c' (List.mem_of_getElem? hhere')) hne'
    · exact (hbest.unique hbest').1
  subst hk
  exact Option.some.inj (hhere.symm.trans hhere')

private theorem exists_chosen {all : List (Computed σ)} {c : Computed σ}
    (h : choose? all = some c) : ∃ k, Chosen all k c := by
  cases all with
  | nil => cases h
  | cons a as =>
    obtain ⟨k, hk⟩ := foldl_firstBest byCost_cases (fun a b => cheaper_asymm a.cost b.cost)
      (fun a b c => cheaper_trans a.cost b.cost c.cost) as a
    obtain rfl := Option.some.inj h
    split
    · next hcost =>
      exact ⟨k, hk.here, Or.inl ⟨Option.isSome_iff_ne_none.mp hcost, hk.map Computed.cost⟩⟩
    · next hcost =>
      have hgreatest (b c : Computed σ) : byPriority b c =
          if b.implementation.priority ≥ c.implementation.priority then b else c := rfl
      obtain ⟨k', hk'⟩ := foldl_greatest (fun c => c.implementation.priority) hgreatest as a
      refine ⟨k', hk'.here, Or.inr ⟨fun d hd => ?_, hk'.map Computed.implementation⟩⟩
      -- a known cost would beat the cheapest one, which is not known
      have hnone : (as.foldl byCost a).cost = none := by simpa using hcost
      have hunbeaten := hk.unbeaten d hd
      rw [hnone] at hunbeaten
      cases hd : d.cost with
      | none => rfl
      | some x => rw [hd] at hunbeaten; exact absurd trivial hunbeaten

private theorem choose?_eq_some_iff {all : List (Computed σ)} {c : Computed σ} :
    choose? all = some c ↔ ∃ k, Chosen all k c := by
  refine ⟨exists_chosen, fun ⟨k, hk⟩ => ?_⟩
  cases hall : choose? all with
  | none =>
    cases all with
    | nil => exact nomatch hk.1
    | cons a as => exact nomatch hall
  | some d =>
    obtain ⟨k', hk'⟩ := exists_chosen hall
    rw [hk'.unique hk]

end Computed

/-! ### Computing candidates -/

/-- The machine after the workload behind some outputs was noted as a task. -/
def Machine.noting (m : Machine σ) (target : Target) (outputs : List Tensor) : Machine σ :=
  match nearestWorkload? outputs with
  | some w => (Action.noteTask ⟨target, w⟩ m).2
  | none => m

/-- **Computing candidates**, each once and in order: the first machine leads to the last one, and
these are the outputs. -/
inductive Computes (r : CallSite) (target : Target) :
    List (Implementation σ) → Machine σ → List (List Tensor) → Machine σ → Prop
  | nil (m : Machine σ) : Computes r target [] m [] m
  | cons {i : Implementation σ} {is : List (Implementation σ)} {m m₁ m' : Machine σ}
      {outputs : List Tensor} {rest : List (List Tensor)} :
      i.compute r.attrs r.inputs r.type m = (.ok outputs, m₁) →
      Computes r target is (m₁.noting target outputs) rest m' →
      Computes r target (i :: is) m (outputs :: rest) m'

/-- **A candidate fails**: those before it are computed, and computing it ends with the fault. -/
def Interrupted (r : CallSite) (target : Target) (is : List (Implementation σ)) (m : Machine σ)
    (e : Fault) (m' : Machine σ) : Prop :=
  ∃ before i after outputs m₁, is = before ++ i :: after ∧
    Computes r target before m outputs m₁ ∧ i.compute r.attrs r.inputs r.type m₁ = (.fault e, m')

variable {r : CallSite} {target : Target} {i : Implementation σ} {is : List (Implementation σ)}
  {m m' : Machine σ} {e : Fault}

/-- Every candidate has outputs. -/
theorem Computes.length {outputs : List (List Tensor)} (h : Computes r target is m outputs m') :
    outputs.length = is.length := by
  induction h with
  | nil => rfl
  | cons _ _ ih => rw [List.length_cons, List.length_cons, ih]

/-- Hand on some outputs with the workload behind them, which is noted. -/
def traced (target : Target) (outputs : List Tensor) :
    Action σ (List Tensor × Option Workload) := fun m =>
  (.ok (outputs, nearestWorkload? outputs), m.noting target outputs)

/-- A candidate is computed, and then the task is noted. -/
theorem computeTraced_eq (i : Implementation σ) (r : CallSite) (target : Target) :
    computeTraced i r target = i.compute r.attrs r.inputs r.type >>= traced target := by
  unfold computeTraced
  congr 1
  funext outputs m
  unfold traced Machine.noting
  cases nearestWorkload? outputs with
  | none => rfl
  | some w =>
    obtain ⟨n, hn, -⟩ := Action.noteTask_eq ⟨target, w⟩ m
    refine Action.bind_eq_ok_iff.mpr ⟨(), n, hn, ?_⟩
    dsimp only
    rw [hn]
    rfl

/-- It ends well just if the implementation does, with the workload that is nearest to its outputs.
-/
theorem computeTraced_eq_ok_iff {outputs : List Tensor} {w : Option Workload} :
    computeTraced i r target m = (.ok (outputs, w), m') ↔
      ∃ m₁, i.compute r.attrs r.inputs r.type m = (.ok outputs, m₁) ∧
        w = nearestWorkload? outputs ∧ m' = m₁.noting target outputs := by
  rw [computeTraced_eq, Action.bind_eq_ok_iff]
  constructor
  · rintro ⟨outputs', m₁, hrun, htraced⟩
    simp only [traced, Prod.mk.injEq, Outcome.ok.injEq] at htraced
    obtain ⟨⟨rfl, rfl⟩, rfl⟩ := htraced
    exact ⟨m₁, hrun, rfl, rfl⟩
  · rintro ⟨m₁, hrun, rfl, rfl⟩
    exact ⟨outputs, m₁, hrun, rfl⟩

private theorem computeTraced_eq_fault_iff :
    computeTraced i r target m = (.fault e, m') ↔
      i.compute r.attrs r.inputs r.type m = (.fault e, m') := by
  rw [computeTraced_eq, Action.bind_eq_fault_iff]
  simp [traced]

/-- The cost of the workload behind some outputs, if it was measured and is finite. -/
def tunedCost? (oracle : Oracle) (target : Target) (outputs : List Tensor) : Option Binary64 :=
  (nearestWorkload? outputs).bind fun w => (oracle target w).finiteCost?

/-- What is kept of candidates that were computed. -/
def computedWith (oracle : Oracle) (target : Target) (is : List (Implementation σ))
    (outputs : List (List Tensor)) : List (Computed σ) :=
  (is.zip outputs).map fun p => ⟨p.1, p.2, tunedCost? oracle target p.2⟩

/-- All candidates are computed just if each of them ends well on the machine that the one before it
left. -/
theorem computeAll_eq_ok_iff {oracle : Oracle} {all : List (Computed σ)} :
    computeAll oracle r target is m = (.ok all, m') ↔
      ∃ outputs, Computes r target is m outputs m' ∧
        all = computedWith oracle target is outputs := by
  -- on the candidates that are left; each begins where noting the task of the last one has led
  induction is generalizing m all with
  | nil =>
    constructor
    · intro h
      obtain ⟨hall, rfl⟩ := Prod.mk.inj h
      exact ⟨[], .nil m, (Outcome.ok.inj hall).symm⟩
    · rintro ⟨outputs, h, rfl⟩
      cases h
      rfl
  | cons i is ih =>
    rw [computeAll, Action.bind_eq_ok_iff]
    constructor
    · rintro ⟨⟨outputs, w⟩, m₁, hrun, hrest⟩
      obtain ⟨m₂, hcompute, rfl, rfl⟩ := computeTraced_eq_ok_iff.mp hrun
      obtain ⟨as, m₃, hall, hpure⟩ := Action.bind_eq_ok_iff.mp hrest
      obtain ⟨heq, rfl⟩ := Prod.mk.inj hpure
      obtain ⟨rest, hcomputes, rfl⟩ := ih.mp hall
      exact ⟨outputs :: rest, .cons hcompute hcomputes, (Outcome.ok.inj heq).symm⟩
    · rintro ⟨_, h, rfl⟩
      cases h with
      | @cons _ _ _ m₁ _ outputs rest hcompute hcomputes =>
        refine ⟨(outputs, nearestWorkload? outputs), _,
          computeTraced_eq_ok_iff.mpr ⟨m₁, hcompute, rfl, rfl⟩, ?_⟩
        exact Action.bind_eq_ok_iff.mpr ⟨_, m', ih.mpr ⟨rest, hcomputes, rfl⟩, rfl⟩

private theorem interrupted_cons_iff : Interrupted r target (i :: is) m e m' ↔
    i.compute r.attrs r.inputs r.type m = (.fault e, m') ∨
      ∃ outputs m₁, i.compute r.attrs r.inputs r.type m = (.ok outputs, m₁) ∧
        Interrupted r target is (m₁.noting target outputs) e m' := by
  constructor
  · rintro ⟨before, j, after, outputs, m₁, heq, hcomputes, hfault⟩
    cases hcomputes with
    | nil =>
      obtain ⟨rfl, -⟩ := List.cons.inj heq
      exact Or.inl hfault
    | @cons k before _ m₂ _ outputs rest hcompute hcomputes =>
      obtain ⟨rfl, rfl⟩ := List.cons.inj heq
      exact Or.inr ⟨outputs, m₂, hcompute, before, j, after, rest, m₁, rfl, hcomputes, hfault⟩
  · rintro (hfault | ⟨outputs, m₁, hcompute, before, j, after, rest, m₂, rfl, hcomputes, hfault⟩)
    · exact ⟨[], i, is, [], m, rfl, .nil m, hfault⟩
    · exact ⟨i :: before, j, after, outputs :: rest, m₂, rfl, .cons hcompute hcomputes, hfault⟩

private theorem computeAll_eq_fault_iff {oracle : Oracle} :
    computeAll oracle r target is m = (.fault e, m') ↔ Interrupted r target is m e m' := by
  induction is generalizing m with
  | nil =>
    constructor
    · intro h
      exact nomatch (Prod.mk.inj h).1
    · rintro ⟨before, i, after, outputs, m₁, heq, -⟩
      simp at heq
  | cons i is ih =>
    rw [computeAll, Action.bind_eq_fault_iff, computeTraced_eq_fault_iff, interrupted_cons_iff]
    refine or_congr_right ⟨?_, ?_⟩
    · rintro ⟨⟨outputs, w⟩, m₁, hrun, hrest⟩
      obtain ⟨m₂, hcompute, rfl, rfl⟩ := computeTraced_eq_ok_iff.mp hrun
      obtain hall | ⟨_, _, _, hpure⟩ := Action.bind_eq_fault_iff.mp hrest
      · exact ⟨outputs, m₂, hcompute, ih.mp hall⟩
      · exact nomatch (Prod.mk.inj hpure).1
    · rintro ⟨outputs, m₁, hcompute, hrest⟩
      exact ⟨(outputs, nearestWorkload? outputs), _,
        computeTraced_eq_ok_iff.mpr ⟨m₁, hcompute, rfl, rfl⟩,
        Action.bind_eq_fault_iff.mpr (Or.inl (ih.mpr hrest))⟩

/-! ### The choice -/

private theorem map_cost_computedWith {oracle : Oracle} {outputs : List (List Tensor)}
    (hlength : outputs.length = is.length) :
    (computedWith oracle target is outputs).map (·.cost) =
      outputs.map (tunedCost? oracle target) := by
  have hsnd : (is.zip outputs).map Prod.snd = outputs :=
    List.map_snd_zip (Nat.le_of_eq hlength)
  conv_rhs => rw [← hsnd]
  rw [computedWith, List.map_map, List.map_map]
  rfl

private theorem map_implementation_computedWith {oracle : Oracle} {outputs : List (List Tensor)}
    (hlength : outputs.length = is.length) :
    (computedWith oracle target is outputs).map (·.implementation) = is := by
  have hfst : (is.zip outputs).map Prod.fst = is :=
    List.map_fst_zip (Nat.le_of_eq hlength.symm)
  conv_rhs => rw [← hfst]
  rw [computedWith, List.map_map]
  rfl

private theorem computedWith_getElem? {oracle : Oracle} {outputs : List (List Tensor)} {k : Nat}
    {c : Computed σ} : (computedWith oracle target is outputs)[k]? = some c ↔
      is[k]? = some c.implementation ∧ outputs[k]? = some c.outputs ∧
        tunedCost? oracle target c.outputs = c.cost := by
  rw [computedWith, List.getElem?_map, Option.map_eq_some_iff]
  constructor
  · rintro ⟨p, hp, rfl⟩
    obtain ⟨hi, houtputs⟩ := List.getElem?_zip_eq_some.mp hp
    exact ⟨hi, houtputs, rfl⟩
  · rintro ⟨hi, houtputs, hcost⟩
    refine ⟨(c.implementation, c.outputs), List.getElem?_zip_eq_some.mpr ⟨hi, houtputs⟩, ?_⟩
    rw [hcost]

/-- The first of the least cost, by position, if a cost is known, and otherwise the first of the
greatest priority. -/
def Cheapest (oracle : Oracle) (target : Target) (is : List (Implementation σ))
    (outputs : List (List Tensor)) (k : Nat) (i : Implementation σ) : Prop :=
  let costs := outputs.map (tunedCost? oracle target)
  (∃ x, FirstBest Cheaper costs k (some x)) ∨ (∀ x ∈ costs, x = none) ∧ FirstBest Outranks is k i

private theorem choose?_computedWith_iff {oracle : Oracle} {all : List (List Tensor)}
    (hlength : all.length = is.length) {outputs : List Tensor} :
    (∃ c, Computed.choose? (computedWith oracle target is all) = some c ∧
        c.implementation = i ∧ c.outputs = outputs) ↔
      ∃ k, is[k]? = some i ∧ all[k]? = some outputs ∧ Cheapest oracle target is all k i := by
  constructor
  · rintro ⟨c, hc, rfl, rfl⟩
    obtain ⟨k, hhere, hbest⟩ := Computed.choose?_eq_some_iff.mp hc
    obtain ⟨hi, houtputs, hcost⟩ := computedWith_getElem?.mp hhere
    rw [map_cost_computedWith hlength, map_implementation_computedWith hlength] at hbest
    refine ⟨k, hi, houtputs, hbest.imp ?_ ?_⟩
    · rintro ⟨hne, hbest⟩
      obtain ⟨x, hx⟩ := Option.ne_none_iff_exists'.mp hne
      exact ⟨x, hx ▸ hbest⟩
    · rintro ⟨hnone, hbest⟩
      refine ⟨?_, hbest⟩
      rw [← map_cost_computedWith hlength]
      simpa using hnone
  · rintro ⟨k, hi, houtputs, hbest⟩
    refine ⟨⟨i, outputs, tunedCost? oracle target outputs⟩, ?_, rfl, rfl⟩
    refine Computed.choose?_eq_some_iff.mpr ⟨k, computedWith_getElem?.mpr ⟨hi, houtputs, rfl⟩, ?_⟩
    rw [map_cost_computedWith hlength, map_implementation_computedWith hlength]
    refine hbest.imp ?_ ?_
    · rintro ⟨x, hx⟩
      have hcost : tunedCost? oracle target outputs = some x := by
        have hhere := hx.here
        rw [List.getElem?_map, houtputs] at hhere
        exact Option.some.inj hhere
      dsimp only
      rw [hcost]
      exact ⟨Option.some_ne_none x, hx⟩
    · rintro ⟨hnone, hbest⟩
      refine ⟨?_, hbest⟩
      rw [← map_cost_computedWith hlength] at hnone
      simpa using hnone

/-- The choice by priority is the first of the candidates that are outranked by none. -/
theorem firstByPriority?_eq_some_iff :
    firstByPriority? is = some i ↔ ∃ k, FirstBest Outranks is k i := by
  refine ⟨firstByPriority?_firstBest, fun ⟨k, hk⟩ => ?_⟩
  cases hfirst : firstByPriority? is with
  | none =>
    cases is with
    | nil => exact nomatch hk.here
    | cons j js => exact nomatch hfirst
  | some j =>
    obtain ⟨k', hk'⟩ := firstByPriority?_firstBest hfirst
    rw [(hk'.unique hk).2]

/-- There is no choice just if there is no candidate. -/
theorem firstByPriority?_eq_none_iff : firstByPriority? is = none ↔ is = [] := by
  cases is with
  | nil => exact ⟨fun _ => rfl, fun _ => rfl⟩
  | cons i is => exact ⟨fun h => (nomatch h), fun h => (nomatch h)⟩

private theorem computes_singleton_iff {outputs : List Tensor} :
    Computes r target [i] m [outputs] m' ↔
      ∃ m₁, i.compute r.attrs r.inputs r.type m = (.ok outputs, m₁) ∧
        m' = m₁.noting target outputs := by
  constructor
  · intro h
    cases h with
    | cons hcompute hrest => cases hrest; exact ⟨_, hcompute, rfl⟩
  · rintro ⟨m₁, hcompute, rfl⟩
    exact .cons hcompute (.nil _)

/-! ### The theorem -/

/-- The candidates that are to be computed: all of them if costs count, and otherwise just the first
of the greatest priority. -/
inductive Due (is : List (Implementation σ)) : Bool → List (Implementation σ) → Prop
  | all : is ≠ [] → Due is true is
  | best {i : Implementation σ} {k : Nat} : FirstBest Outranks is k i → Due is false [i]

/-- Without costs, the first candidate that is outranked by none is chosen, and only it is computed.
-/
theorem select_false_iff {outputs : List Tensor} :
    select is r target false m = (.ok (i, outputs), m') ↔
      (∃ k, FirstBest Outranks is k i) ∧ Computes r target [i] m [outputs] m' := by
  rw [← firstByPriority?_eq_some_iff, computes_singleton_iff, select]
  cases hfirst : firstByPriority? is with
  | none =>
    simp [Action.fail]
  | some best =>
    simp only [Bool.false_eq_true, if_false, Action.bind_eq_ok_iff]
    constructor
    · rintro ⟨⟨outputs', w⟩, m₁, hrun, hpure⟩
      obtain ⟨heq, rfl⟩ := Prod.mk.inj hpure
      obtain ⟨rfl, rfl⟩ := Prod.mk.inj (Outcome.ok.inj heq)
      obtain ⟨m₂, hcompute, -, rfl⟩ := computeTraced_eq_ok_iff.mp hrun
      exact ⟨rfl, m₂, hcompute, rfl⟩
    · rintro ⟨hbest, m₁, hcompute, rfl⟩
      obtain rfl := Option.some.inj hbest
      exact ⟨(outputs, _), _, computeTraced_eq_ok_iff.mpr ⟨m₁, hcompute, rfl, rfl⟩, rfl⟩

/-- The first one of the greatest priority is chosen, if it ends with a value. -/
theorem select_of_firstByPriority {outputs : List Tensor} (hbest : firstByPriority? is = some i)
    (hrun : i.compute r.attrs r.inputs r.type m = (.ok outputs, m')) :
    select is r target false m = (.ok (i, outputs), m'.noting target outputs) :=
  select_false_iff.mpr
    ⟨firstByPriority?_firstBest hbest, computes_singleton_iff.mpr ⟨m', hrun, rfl⟩⟩

/-- With costs, what was computed is chosen from. -/
private theorem select_true (his : is ≠ []) (r : CallSite) (target : Target) (m : Machine σ) :
    select is r target true m = (computeAll m.tuning.oracle r target is >>= fun all =>
      Action.ofOption (.noImplementation r.op) (Computed.choose? all) >>= fun c =>
        pure (c.implementation, c.outputs)) m := by
  cases is with
  | nil => exact absurd rfl his
  | cons i is => rfl

private theorem ofOption_choose_iff {all : List (Computed σ)} {outputs : List Tensor} :
    (Action.ofOption (.noImplementation r.op) (Computed.choose? all) >>= fun c =>
        pure (c.implementation, c.outputs)) m = (.ok (i, outputs), m') ↔
      (∃ c, Computed.choose? all = some c ∧ c.implementation = i ∧ c.outputs = outputs) ∧
        m' = m := by
  cases Computed.choose? all with
  | none =>
    constructor
    · intro h
      exact nomatch (Prod.mk.inj h).1
    · rintro ⟨⟨c, hc, -⟩, -⟩
      exact nomatch hc
  | some c =>
    constructor
    · intro h
      obtain ⟨heq, rfl⟩ := Prod.mk.inj h
      obtain ⟨hi, houtputs⟩ := Prod.mk.inj (Outcome.ok.inj heq)
      exact ⟨⟨c, rfl, hi, houtputs⟩, rfl⟩
    · rintro ⟨⟨d, hd, rfl, rfl⟩, rfl⟩
      obtain rfl := Option.some.inj hd
      rfl

/-- With costs, all candidates are computed, and one of them is chosen. -/
theorem select_true_iff {outputs : List Tensor} :
    select is r target true m = (.ok (i, outputs), m') ↔
      ∃ all k, Computes r target is m all m' ∧ is[k]? = some i ∧ all[k]? = some outputs ∧
        Cheapest m.tuning.oracle target is all k i := by
  by_cases his : is = []
  · subst his
    constructor
    · intro h
      exact nomatch (Prod.mk.inj h).1
    · rintro ⟨all, k, -, hi, -⟩
      simp at hi
  · rw [select_true his, Action.bind_eq_ok_iff]
    constructor
    · rintro ⟨cs, m₁, hall, hchoose⟩
      obtain ⟨all, hcomputes, rfl⟩ := computeAll_eq_ok_iff.mp hall
      obtain ⟨hchosen, rfl⟩ := ofOption_choose_iff.mp hchoose
      obtain ⟨k, hbest⟩ := (choose?_computedWith_iff hcomputes.length).mp hchosen
      exact ⟨all, k, hcomputes, hbest⟩
    · rintro ⟨all, k, hcomputes, hbest⟩
      have hchosen := (choose?_computedWith_iff hcomputes.length).mpr ⟨k, hbest⟩
      exact ⟨_, m', computeAll_eq_ok_iff.mpr ⟨all, hcomputes, rfl⟩,
        ofOption_choose_iff.mpr ⟨hchosen, rfl⟩⟩

/-- Among candidates that were computed there is one to choose. -/
private theorem choose?_computedWith_ne_none {oracle : Oracle} {outputs : List (List Tensor)}
    (his : is ≠ []) (hlength : outputs.length = is.length) :
    Computed.choose? (computedWith oracle target is outputs) ≠ none := by
  obtain ⟨i, is, rfl⟩ := List.exists_cons_of_ne_nil his
  cases outputs with
  | nil => cases hlength
  | cons o os => exact fun h => nomatch h

private theorem select_true_fault_iff (his : is ≠ []) :
    select is r target true m = (.fault e, m') ↔ Interrupted r target is m e m' := by
  rw [select_true his, Action.bind_eq_fault_iff, computeAll_eq_fault_iff]
  constructor
  · rintro (h | ⟨all, m₁, hall, hchoose⟩)
    · exact h
    · -- once all are computed, nothing can fail
      obtain ⟨outputs, hcomputes, rfl⟩ := computeAll_eq_ok_iff.mp hall
      have hsome : Computed.choose? (computedWith m.tuning.oracle target is outputs) ≠ none :=
        choose?_computedWith_ne_none his hcomputes.length
      obtain ⟨c, hc⟩ := Option.ne_none_iff_exists'.mp hsome
      rw [hc] at hchoose
      exact nomatch (Prod.mk.inj hchoose).1
  · exact Or.inl

private theorem interrupted_singleton_iff : Interrupted r target [i] m e m' ↔
    i.compute r.attrs r.inputs r.type m = (.fault e, m') := by
  rw [interrupted_cons_iff]
  constructor
  · rintro (h | ⟨outputs, m₁, -, before, j, after, os, m₂, heq, -⟩)
    · exact h
    · simp at heq
  · exact Or.inl

private theorem select_false_fault_iff {best : Implementation σ}
    (h : firstByPriority? is = some best) :
    select is r target false m = (.fault e, m') ↔ Interrupted r target [best] m e m' := by
  have htraced : computeTraced best r target m = (.fault e, m') ↔ _ := computeTraced_eq_fault_iff
  rw [interrupted_singleton_iff, select, h, ← htraced]
  simp only [Bool.false_eq_true, if_false, Action.bind_eq_fault_iff]
  constructor
  · rintro (h | ⟨_, _, -, hpure⟩)
    · exact h
    · exact nomatch (Prod.mk.inj hpure).1
  · exact Or.inl

/-- A choice fails just if there is no candidate, or at the first one due that fails. -/
theorem select_fault_iff {useCosts : Bool} :
    select is r target useCosts m = (.fault e, m') ↔
      is = [] ∧ e = .noImplementation r.op ∧ m' = m ∨
        ∃ js, Due is useCosts js ∧ Interrupted r target js m e m' := by
  by_cases his : is = []
  · subst his
    constructor
    · intro h
      obtain ⟨he, rfl⟩ := Prod.mk.inj h
      exact Or.inl ⟨rfl, (Outcome.fault.inj he).symm, rfl⟩
    · rintro (⟨-, rfl, rfl⟩ | ⟨js, hdue, -⟩)
      · rfl
      · cases hdue with
        | all hne => exact absurd rfl hne
        | best hbest => exact nomatch hbest.here
  · have hempty : ¬(is = [] ∧ e = .noImplementation r.op ∧ m' = m) := fun h => his h.1
    rw [or_iff_right hempty]
    cases useCosts with
    | true =>
      rw [select_true_fault_iff his]
      constructor
      · exact fun h => ⟨is, .all his, h⟩
      · rintro ⟨js, ⟨⟩, h⟩
        exact h
    | false =>
      obtain ⟨best, hfirst⟩ := Option.ne_none_iff_exists'.mp
        (mt firstByPriority?_eq_none_iff.mp his)
      rw [select_false_fault_iff hfirst]
      obtain ⟨k, hbest⟩ := firstByPriority?_firstBest hfirst
      constructor
      · exact fun h => ⟨[best], .best hbest, h⟩
      · rintro ⟨js, hdue, h⟩
        cases hdue with
        | best hbest' =>
          obtain ⟨-, rfl⟩ := hbest.unique hbest'
          exact h

/-- **The choice is optimal.** For any candidates and any call:

* by priority alone, the choice ends well just if the first candidate of the greatest priority is
  computed, and no other, and it returns this candidate with these outputs;
* with costs, it ends well just if all candidates are computed, each once and in order, and it
  returns the first of the least finite cost, or if there is no such cost the first of the greatest
  priority, with the outputs that this candidate has computed;
* it ends with a fault just if there are no candidates, and then nothing is computed, or if a
  candidate that is due ends with this fault, and then no candidate after it is computed. -/
theorem select_optimal (is : List (Implementation σ)) (r : CallSite) (target : Target)
    (m m' : Machine σ) :
    (∀ i outputs, select is r target false m = (.ok (i, outputs), m') ↔
      (∃ k, FirstBest Outranks is k i) ∧ Computes r target [i] m [outputs] m') ∧
    (∀ i outputs, select is r target true m = (.ok (i, outputs), m') ↔
      ∃ all k, Computes r target is m all m' ∧ is[k]? = some i ∧ all[k]? = some outputs ∧
        Cheapest m.tuning.oracle target is all k i) ∧
    (∀ useCosts e, select is r target useCosts m = (.fault e, m') ↔
      is = [] ∧ e = .noImplementation r.op ∧ m' = m ∨
        ∃ js, Due is useCosts js ∧ Interrupted r target js m e m') :=
  ⟨fun _ _ => select_false_iff, fun _ _ => select_true_iff, fun _ _ => select_fault_iff⟩

end TensorLowering
