import TensorLowering.Lowering.Call
import TensorLowering.Lowering.Walk
import TensorLowering.Proofs.Index.Renumbering
import TensorLowering.Proofs.Lowering.Quiet
import TensorLowering.Proofs.Lowering.SideBySide

/-!
# Choosing side by side

If what is offered for two calls is alike, and the same conditions are proved, then what is chosen
is alike: the same workloads are met, and the same costs are known. So a call is lowered alike if
the collaborators do alike with what looks alike.

What that means depends on the correspondences that are considered, which are given by a property
`D`. An implementation is alike in `D` if it computes alike under every correspondence in `D`, and
never leaves `D` (`Implementation.AlikeIn`).

Conditions that correspond need not be proved both: that may depend on which of two variables comes
first, and so on the lots. It is asked of guards that `D` decides about them
(`Correspondence.Decides`). Steady ones are decided whatever `D` is, and if every variable
corresponds to itself, all are.
-/

namespace TensorLowering

open Setting

variable {σ : Type}

/-! ### Offers -/

/-- Implementations of one name and priority that, from now on, compute alike in `D`. -/
structure Implementation.AlikeIn (D : Correspondence → Prop) (k : Setting σ) (w : Correspondence)
    (i i' : Implementation σ) : Prop where
  name : i.name = i'.name
  priority : i.priority = i'.priority
  compute : ∀ w', w.Grows w' → D w' → ∀ attrs inputs inputs' type type',
    w'.SameAll inputs inputs' → Ty.Alike w'.numbers type type' →
      k.SideBySideIn D w' Correspondence.SameAll
        (i.compute attrs inputs type) (i'.compute attrs inputs' type')

/-- Groups of such implementations, under conditions that correspond. -/
structure Specialization.AlikeIn (D : Correspondence → Prop) (k : Setting σ) (w : Correspondence)
    (s s' : Specialization σ) : Prop where
  condition : Option.Rel (List.Forall₂ (IndexExpr.Alike w.numbers)) s.condition s'.condition
  implementations :
    List.Forall₂ (Implementation.AlikeIn D k w) s.implementations s'.implementations

/-- Offers of such groups. -/
def Offer.AlikeIn (D : Correspondence → Prop) (k : Setting σ) (w : Correspondence)
    (o o' : Offer σ) : Prop :=
  List.Forall₂ (Specialization.AlikeIn D k w) o.specializations o'.specializations

/-- Collaborators that do alike with what looks alike, under the correspondences in `D`. -/
structure Collaborators.AlikeIn (D : Correspondence → Prop) (k : Setting σ)
    (c : Collaborators σ) : Prop where
  strategy : ∀ op s, c.strategy? k.own op = some s → ∀ w, D w →
    ∀ attrs inputs inputs' type type' target, w.SameAll inputs inputs' →
      Ty.Alike w.numbers type type' → k.SideBySideIn D w (Offer.AlikeIn D k)
        (s attrs inputs type target) (s attrs inputs' type' target)
  shapeFunction : ∀ op s, c.shapeFunction? k.own op = some s → ∀ w, D w →
    ∀ attrs inputs inputs' ranks, w.SameAll inputs inputs' →
      k.SideBySideIn D w Correspondence.SameAll (s attrs inputs ranks) (s attrs inputs' ranks)

/-- Under the correspondences in `D`, the guard is proved just if the one that corresponds to it
is. -/
def Correspondence.Decides (D : Correspondence → Prop) (e : IndexExpr) : Prop :=
  ∀ w e', D w → e.Alike w.numbers e' → e.proves [] = e'.proves []

/-- The guards of a specialization. Those of an unconditional one are none. -/
def Specialization.guards (s : Specialization σ) : List IndexExpr := s.condition.getD []

/-- All the guards of an offer. -/
def Offer.guards (o : Offer σ) : List IndexExpr := o.specializations.flatMap Specialization.guards

/-- The guard is one of those that the strategy of the operator offers for the call. -/
def Collaborators.Guards (c : Collaborators σ) (r : CallSite) (target : Target) (m : Machine σ)
    (e : IndexExpr) : Prop :=
  ∃ s o n, c.strategy? m.own r.op = some s ∧
    Action.withTarget target (s r.attrs r.inputs r.type target) m = (.ok o, n) ∧ e ∈ o.guards

variable {D : Correspondence → Prop} {k : Setting σ} {w w' : Correspondence} {e : IndexExpr}

/-- What is proved of a steady guard does not depend on the numbers of variables. -/
theorem IndexExpr.Steady.decides (h : e.Steady) (D : Correspondence → Prop) :
    Correspondence.Decides D e :=
  fun w e' _ => h w.numbers e' w.biUnique

/-- Implementations compute alike also when more tensors and variables were made. -/
theorem Implementation.AlikeIn.mono {i i' : Implementation σ} (hw : w.Grows w')
    (h : i.AlikeIn D k w i') : i.AlikeIn D k w' i' :=
  ⟨h.name, h.priority, fun w'' hw' => h.compute w'' (hw.trans hw')⟩

/-! ### What can be considered -/

private theorem all_proves_eq (hD : D w) {clauses clauses' : List IndexExpr}
    (h : List.Forall₂ (IndexExpr.Alike w.numbers) clauses clauses')
    (hguards : ∀ e ∈ clauses, Correspondence.Decides D e) :
    clauses.all (IndexExpr.proves []) = clauses'.all (IndexExpr.proves []) := by
  induction h with
  | nil => rfl
  | @cons e e' clauses clauses' he _ ih =>
    rw [List.forall_mem_cons] at hguards
    rw [List.all_cons, List.all_cons, hguards.1 w e' hD he, ih hguards.2]

/-- The same conditions are proved on both sides, if `D` decides about them. -/
private theorem Specialization.AlikeIn.applies_eq {s s' : Specialization σ} (h : s.AlikeIn D k w s')
    (hD : D w) (hguards : ∀ e ∈ s.guards, Correspondence.Decides D e) : s.applies = s'.applies := by
  obtain ⟨condition, is⟩ := s
  obtain ⟨condition', is'⟩ := s'
  have hcondition : Option.Rel (List.Forall₂ (IndexExpr.Alike w.numbers)) condition condition' :=
    h.condition
  cases hcondition with
  | none => rfl
  | some hclauses => exact all_proves_eq hD hclauses hguards

private theorem Offer.AlikeIn.applicable {o o' : Offer σ} (h : o.AlikeIn D k w o') (hD : D w)
    (hguards : ∀ e ∈ o.guards, Correspondence.Decides D e) :
    List.Forall₂ (Implementation.AlikeIn D k w) o.applicable o'.applicable := by
  obtain ⟨ss⟩ := o
  obtain ⟨ss'⟩ := o'
  change List.Forall₂ (Specialization.AlikeIn D k w) ss ss' at h
  change List.Forall₂ _ ((ss.filter Specialization.applies).flatMap Specialization.implementations)
    ((ss'.filter Specialization.applies).flatMap Specialization.implementations)
  change ∀ e ∈ ss.flatMap Specialization.guards, Correspondence.Decides D e at hguards
  induction h with
  | nil => exact List.Forall₂.nil
  | @cons s s' ss ss' hs _ ih =>
    rw [List.flatMap_cons, List.forall_mem_append] at hguards
    have happlies := hs.applies_eq hD hguards.1
    rw [List.filter_cons, List.filter_cons, ← happlies]
    split
    · exact List.rel_append hs.implementations (ih hguards.2)
    · exact ih hguards.2

/-- Calls of one operator on tensors that look alike, for types that correspond. -/
structure CallSite.Alike (w : Correspondence) (r r' : CallSite) : Prop where
  op : r.op = r'.op
  attrs : r.attrs = r'.attrs
  inputs : w.SameAll r.inputs r'.inputs
  type : Ty.Alike w.numbers r.type r'.type

theorem CallSite.Alike.mono {r r' : CallSite} (hw : w.Grows w') (h : r.Alike w r') :
    r.Alike w' r' :=
  ⟨h.op, h.attrs, hw.sameAll h.inputs, h.type.mono hw.numbers⟩

namespace Setting.SideBySide

variable {c : Collaborators σ} {r r' : CallSite}

/-- The collaborators are looked up in what they keep, which is the same on both sides. -/
private theorem lookUp {α : Type} {x : Action σ α} (hD : D w) (e : Fault) (f : σ → Option α)
    (hx : ∀ m, x m = Action.ofOption e (f m.own) m) :
    k.SideBySideIn D w (fun _ a b => a = b ∧ f k.own = some a) x x := by
  intro m m' hm
  rw [hx m, hx m', hm.own, hm.own']
  cases hf : f k.own with
  | none => exact Ends.fault e m m'
  | some a => exact Ends.ok (Correspondence.Grows.refl w) hm ⟨hD, rfl, rfl⟩

/-- **The candidates are alike**, if the guards that are offered are decided. -/
theorem ends_candidates (hc : c.AlikeIn D k) (hD : D w) (hr : r.Alike w r') (target : Target)
    {m m' : Machine σ} (hm : k.Holds w m m')
    (hguards : ∀ e, c.Guards r target m e → Correspondence.Decides D e) :
    k.Ends w (fun w is is' => D w ∧ List.Forall₂ (Implementation.AlikeIn D k w) is is')
      (TensorLowering.candidates c r target m) (TensorLowering.candidates c r' target m') := by
  have hstrategy : k.SideBySideIn D w (fun _ s s' => s = s' ∧ c.strategy? k.own r.op = some s)
      (c.strategy r.op) (c.strategy r.op) :=
    lookUp hD (.noStrategy r.op) (c.strategy? · r.op) fun _ => rfl
  unfold TensorLowering.candidates
  rw [← hr.op, ← hr.attrs]
  refine (hstrategy m m' hm).bind fun w₁ s s' n n' hlookup hw₁ hn hs => ?_
  obtain ⟨hD₁, rfl, hs⟩ := hs
  obtain rfl : n = m := by
    have hrun : c.strategy r.op m = Action.ofOption (.noStrategy r.op) (some s) m := by
      rw [← hs, ← hm.own]
      rfl
    exact (Prod.mk.inj (hlookup.symm.trans hrun)).2
  have hr₁ := hr.mono hw₁
  have hoffer := hc.strategy r.op s hs w₁ hD₁ r.attrs r.inputs r'.inputs r.type r'.type target
    hr₁.inputs hr₁.type
  refine (withTarget target target hoffer n n' hn).bind fun w₂ o o' n₁ n₁' hrun _ hn₁ ho => ?_
  refine Ends.ok (.refl w₂) hn₁ ⟨ho.1, ho.2.applicable ho.1 fun e he => ?_⟩
  exact hguards e ⟨s, o, n₁, hm.own ▸ hs, hrun, he⟩

end Setting.SideBySide

/-! ### What is chosen -/

/-- Implementations that are alike and were computed with outputs that look alike, at one cost. -/
structure Computed.AlikeIn (D : Correspondence → Prop) (k : Setting σ) (w : Correspondence)
    (a a' : Computed σ) : Prop where
  implementation : a.implementation.AlikeIn D k w a'.implementation
  outputs : w.SameAll a.outputs a'.outputs
  cost : a.cost = a'.cost

private theorem Computed.AlikeIn.byCost {a a' b b' : Computed σ} (ha : a.AlikeIn D k w a')
    (hb : b.AlikeIn D k w b') : (a.byCost b).AlikeIn D k w (a'.byCost b') := by
  rw [Computed.byCost, Computed.byCost, ha.cost, hb.cost]
  split
  · split
    · exact hb
    · exact ha
  · exact hb
  · exact ha

private theorem Computed.AlikeIn.byPriority {a a' b b' : Computed σ} (ha : a.AlikeIn D k w a')
    (hb : b.AlikeIn D k w b') : (a.byPriority b).AlikeIn D k w (a'.byPriority b') := by
  rw [Computed.byPriority, Computed.byPriority, ha.implementation.priority,
    hb.implementation.priority]
  split
  · exact ha
  · exact hb

private theorem Computed.AlikeIn.choose? {as as' : List (Computed σ)}
    (h : List.Forall₂ (Computed.AlikeIn D k w) as as') :
    Option.Rel (Computed.AlikeIn D k w) (Computed.choose? as) (Computed.choose? as') := by
  cases h with
  | nil => exact Option.Rel.none
  | cons ha has =>
    have hcost := List.rel_foldl (R := Computed.AlikeIn D k w) (P := Computed.AlikeIn D k w)
      (fun _ _ ha _ _ hb => ha.byCost hb) ha has
    have hpriority := List.rel_foldl (R := Computed.AlikeIn D k w) (P := Computed.AlikeIn D k w)
      (fun _ _ ha _ _ hb => ha.byPriority hb) ha has
    rw [Computed.choose?, Computed.choose?, hcost.cost]
    split
    · exact Option.Rel.some hcost
    · exact Option.Rel.some hpriority

private theorem Implementation.AlikeIn.byPriority {i i' j j' : Implementation σ}
    (hi : i.AlikeIn D k w i') (hj : j.AlikeIn D k w j') :
    (TensorLowering.byPriority i j).AlikeIn D k w (TensorLowering.byPriority i' j') := by
  rw [TensorLowering.byPriority, TensorLowering.byPriority, hi.priority, hj.priority]
  split
  · exact hi
  · exact hj

/-- The first of the greatest priority stands in one place on both sides. -/
theorem Implementation.AlikeIn.firstByPriority? {is is' : List (Implementation σ)}
    (h : List.Forall₂ (Implementation.AlikeIn D k w) is is') :
    Option.Rel (Implementation.AlikeIn D k w) (TensorLowering.firstByPriority? is)
      (TensorLowering.firstByPriority? is') := by
  cases h with
  | nil => exact Option.Rel.none
  | cons hi his =>
    exact Option.Rel.some (List.rel_foldl (R := Implementation.AlikeIn D k w)
      (P := Implementation.AlikeIn D k w) (fun _ _ hi _ _ hj => hi.byPriority hj) hi his)

namespace Setting.SideBySide

variable {r r' : CallSite}

/-- What is computed alike has the same workload behind it. -/
theorem computeTraced {i i' : Implementation σ} (hi : i.AlikeIn D k w i') (hD : D w)
    (hr : r.Alike w r') (target : Target) :
    k.SideBySideIn D w (fun w a b => w.SameAll a.1 b.1 ∧ a.2 = b.2)
      (TensorLowering.computeTraced i r target) (TensorLowering.computeTraced i' r' target) := by
  have hcompute := hi.compute w (Correspondence.Grows.refl w) hD r.attrs r.inputs r'.inputs r.type
    r'.type hr.inputs hr.type
  unfold TensorLowering.computeTraced
  rw [← hr.attrs]
  refine hcompute.bind fun w₁ ts ts' _ hts => ?_
  obtain ⟨hD₁, hts⟩ := hts
  obtain ⟨hmade, hmade'⟩ := Correspondence.made_of_same hts
  have hworkload := nearestWorkload?_eq_of_alike hmade hmade' (hts.imp fun _ _ ht => ht.alike)
  rw [hworkload]
  split
  · next workload _ =>
    refine (noteTask ⟨target, workload⟩ ⟨target, workload⟩).bind fun w₂ _ _ _ hw₂ => ?_
    subst hw₂
    exact pure ⟨hD₁, hts, rfl⟩
  · exact pure ⟨hD₁, hts, rfl⟩

private theorem computeAll {is is' : List (Implementation σ)}
    (his : List.Forall₂ (Implementation.AlikeIn D k w) is is') (hD : D w) (hr : r.Alike w r')
    (oracle : Oracle) (target : Target) :
    k.SideBySideIn D w (fun w => List.Forall₂ (Computed.AlikeIn D k w))
      (TensorLowering.computeAll oracle r target is)
      (TensorLowering.computeAll oracle r' target is') := by
  induction is generalizing is' w with
  | nil =>
    obtain rfl := List.forall₂_nil_left_iff.mp his
    exact pure ⟨hD, List.Forall₂.nil⟩
  | cons i is ih =>
    obtain ⟨i', is', hi, hrest, rfl⟩ := List.forall₂_cons_left_iff.mp his
    unfold TensorLowering.computeAll
    refine (computeTraced hi hD hr target).bind fun w₁ a b hw₁ hab => ?_
    obtain ⟨outputs, workload⟩ := a
    obtain ⟨outputs', workload'⟩ := b
    obtain ⟨hD₁, houtputs, rfl⟩ :
      D w₁ ∧ w₁.SameAll outputs outputs' ∧ workload = workload' := hab
    have his₁ : List.Forall₂ (Implementation.AlikeIn D k w₁) is is' :=
      hrest.imp fun _ _ hi => hi.mono hw₁
    refine (ih his₁ hD₁ (hr.mono hw₁)).bind fun w₂ all all' hw₂ hall => ?_
    refine pure ⟨hall.1, List.Forall₂.cons ?_ hall.2⟩
    exact ⟨hi.mono (hw₁.trans hw₂), hw₂.sameAll houtputs, rfl⟩

/-- What was chosen is known by its name and priority. -/
def Chosen (w : Correspondence) (a b : Implementation σ × List Tensor) : Prop :=
  a.1.name = b.1.name ∧ a.1.priority = b.1.priority ∧ w.SameAll a.2 b.2

/-- Candidates that compute alike are chosen alike. -/
theorem select {is is' : List (Implementation σ)}
    (his : List.Forall₂ (Implementation.AlikeIn D k w) is is') (hD : D w) (hr : r.Alike w r')
    (target : Target) (useCosts : Bool) :
    k.SideBySideIn D w Chosen (TensorLowering.select is r target useCosts)
      (TensorLowering.select is' r' target useCosts) := by
  have hfirst := Implementation.AlikeIn.firstByPriority? his
  unfold TensorLowering.select
  generalize TensorLowering.firstByPriority? is = o at hfirst
  generalize TensorLowering.firstByPriority? is' = o' at hfirst
  cases hfirst with
  | none =>
    rw [← hr.op]
    exact fail (.noImplementation r.op)
  | @some best best' hbest =>
    -- by priority only the first implementation is computed, by cost all are
    cases useCosts with
    | false =>
      refine (computeTraced hbest hD hr target).bind fun w₁ a b _ hab => ?_
      exact pure ⟨hab.1, hbest.name, hbest.priority, hab.2.1⟩
    | true =>
      have horacle : k.SideBySideIn D w (fun _ a b => a = b)
          (Action.read fun m => m.tuning.oracle) (Action.read fun m => m.tuning.oracle) :=
        read fun m m' hm => ⟨hD, hm.oracle.trans hm.oracle'.symm⟩
      refine horacle.bind fun w₁ oracle oracle' hw₁ ho => ?_
      obtain ⟨hD₁, rfl⟩ : D w₁ ∧ oracle = oracle' := ho
      have his₁ : List.Forall₂ (Implementation.AlikeIn D k w₁) is is' :=
        his.imp fun _ _ hi => hi.mono hw₁
      refine (computeAll his₁ hD₁ (hr.mono hw₁) oracle target).bind fun w₂ all all' _ hall => ?_
      rw [← hr.op]
      have hchoose : k.SideBySideIn D w₂ (Computed.AlikeIn D k)
          (Action.ofOption (.noImplementation r.op) (Computed.choose? all))
          (Action.ofOption (.noImplementation r.op) (Computed.choose? all')) := by
        refine ofOption _ ?_
        have hrel := Computed.AlikeIn.choose? hall.2
        generalize Computed.choose? all = o at hrel
        generalize Computed.choose? all' = o' at hrel
        cases hrel with
        | some hab => exact Option.Rel.some ⟨hall.1, hab⟩
        | none => exact Option.Rel.none
      refine hchoose.bind fun w₃ a b _ hab => ?_
      obtain ⟨hD₃, hab⟩ := hab
      exact pure ⟨hD₃, hab.implementation.name, hab.implementation.priority, hab.outputs⟩

end Setting.SideBySide

/-! ### Calls -/

/-- Calls that differ in nothing but their arguments, which have the same types. -/
structure Call.Alike (call call' : Call) : Prop where
  op : call.op = call'.op
  attrs : call.attrs = call'.attrs
  type : call.type = call'.type
  args : call.args.map Expr.type = call'.args.map Expr.type

private theorem Call.Alike.isDynamic_eq {call call' : Call} (h : call.Alike call') :
    call.isDynamic = call'.isDynamic := by
  have hany (args : List Expr) :
      (args.any fun e => e.type.hasUnknown) = (args.map Expr.type).any Ty.hasUnknown := by
    rw [List.any_map]
    rfl
  rw [Call.isDynamic, Call.isDynamic, hany, hany, h.type, h.args]

/-- The same was chosen, with outputs that look alike. -/
structure LoweredCall.Alike (w : Correspondence) (c c' : LoweredCall) : Prop where
  implementation : c.implementation = c'.implementation
  priority : c.priority = c'.priority
  outputs : w.SameAll c.outputs c'.outputs

theorem LoweredCall.Alike.mono {c c' : LoweredCall} (hw : w.Grows w') (h : c.Alike w c') :
    c.Alike w' c' :=
  ⟨h.implementation, h.priority, hw.sameAll h.outputs⟩

/-- Finding the candidates for a call and choosing one of them. -/
def Collaborators.choose (c : Collaborators σ) (target : Target) (useCosts : Bool)
    (r : CallSite) : Action σ LoweredCall := do
  let is ← candidates c r target
  let (chosen, outputs) ← select is r target useCosts
  return ⟨chosen.name, chosen.priority, outputs⟩

namespace Setting.SideBySide

variable {c : Collaborators σ} {call call' : Call} {inputs inputs' : List Tensor}
  {m m' : Machine σ}

/-- A choice is made alike if the guards that are offered are decided alike. -/
theorem ends_choose (hc : c.AlikeIn D k) (hD : D w) {r r' : CallSite} (hr : r.Alike w r')
    (target : Target) (useCosts : Bool) (hm : k.Holds w m m')
    (hguards : ∀ e, c.Guards r target m e → Correspondence.Decides D e) :
    k.Ends w (fun w a b => D w ∧ a.Alike w b) (c.choose target useCosts r m)
      (c.choose target useCosts r' m') := by
  refine (ends_candidates hc hD hr target hm hguards).bind fun w₁ is is' n n' _ hw₁ hn his => ?_
  refine (select his.2 his.1 (hr.mono hw₁) target useCosts n n' hn).bind ?_
  intro w₂ a b n₁ n₁' _ _ hn₁ hab
  exact .ok (.refl w₂) hn₁ ⟨hab.1, hab.2.1, hab.2.2.1, hab.2.2.2⟩

/-- **A call is lowered alike if a candidate is chosen alike** for each type that its type may have
as normal forms on both sides. Costs may be asked for on one side only. -/
theorem ends_lowerCall (hcall : call.Alike call')
    (htype : k.SideBySideIn D w (fun w => Ty.Alike w.numbers)
      (Action.takeNumbers fun lots next => call.type.normalize lots next)
      (Action.takeNumbers fun lots next => call.type.normalize lots next))
    (hinputs : w.SameAll inputs inputs') {target : Target} {useCosts useCosts' : Bool}
    (hm : k.Holds w m m')
    (hchoose : ∀ (w' : Correspondence) (type type' : Ty) (n n' : Machine σ) (t t' : Thread), D w' →
      CallSite.Alike w' ⟨call.op, call.attrs, inputs, type⟩ ⟨call.op, call.attrs, inputs', type'⟩ →
      Action.takeNumbers (fun lots next => call.type.normalize lots next) m = (.ok type, n) →
      t = (if n.excludes call.op then n.thread.suspend else n.thread) →
      k.Holds w' { n with thread := t } { n' with thread := t' } →
      k.Ends w' (fun w a b => D w ∧ a.Alike w b)
        (c.choose target (useCosts && !call.isDynamic) ⟨call.op, call.attrs, inputs, type⟩
          { n with thread := t })
        (c.choose target (useCosts' && !call.isDynamic) ⟨call.op, call.attrs, inputs', type'⟩
          { n' with thread := t' })) :
    k.Ends w (fun w a b => D w ∧ a.Alike w b)
      (TensorLowering.lowerCall c target useCosts call inputs m)
      (TensorLowering.lowerCall c target useCosts' call' inputs' m') := by
  unfold TensorLowering.lowerCall
  rw [← hcall.op, ← hcall.attrs, ← hcall.type, ← hcall.isDynamic_eq]
  refine (htype m m' hm).bind fun w₁ type type' n n' hrun hw₁ hn ht => ?_
  have hsite : CallSite.Alike w₁ ⟨call.op, call.attrs, inputs, type⟩
      ⟨call.op, call.attrs, inputs', type'⟩ := ⟨rfl, rfl, hw₁.sameAll hinputs, ht.2⟩
  -- tracing may be suspended on one side only
  refine Ends.suspendIf (n.excludes call.op) (n'.excludes call.op) fun t t' h => ?_
  exact hchoose w₁ type type' n n' t t' ht.1 hsite hrun h (hn.withThread t t')

/-- **A call is lowered alike**, once its type has a normal form on both sides, if `D` decides about
all guards. -/
theorem lowerCall_in (hc : c.AlikeIn D k) (hdecides : ∀ e, Correspondence.Decides D e)
    (hcall : call.Alike call')
    (htype : k.SideBySideIn D w (fun w => Ty.Alike w.numbers)
      (Action.takeNumbers fun lots next => call.type.normalize lots next)
      (Action.takeNumbers fun lots next => call.type.normalize lots next))
    (hinputs : w.SameAll inputs inputs') (target : Target) (useCosts : Bool) :
    k.SideBySideIn D w LoweredCall.Alike
      (TensorLowering.lowerCall c target useCosts call inputs)
      (TensorLowering.lowerCall c target useCosts call' inputs') := by
  intro m m' hm
  refine ends_lowerCall hcall htype hinputs hm fun w₁ type type' n n' t t' hD hsite _ _ hn => ?_
  exact ends_choose hc hD hsite target _ hn fun e _ => hdecides e

/-- **A shape function is called alike.** -/
theorem callShapeFunction_in (hc : c.AlikeIn D k) (hD : D w) (hcall : call.Alike call')
    (hinputs : w.SameAll inputs inputs') :
    k.SideBySideIn D w Correspondence.SameAll
      (TensorLowering.callShapeFunction c call inputs)
      (TensorLowering.callShapeFunction c call' inputs') := by
  have hfunction : k.SideBySideIn D w
      (fun _ s s' => s = s' ∧ c.shapeFunction? k.own call.op = some s)
      (c.shapeFunction call.op) (c.shapeFunction call.op) :=
    lookUp hD (.noShapeFunction call.op) (c.shapeFunction? · call.op) fun _ => rfl
  unfold TensorLowering.callShapeFunction
  rw [← hcall.op, ← hcall.attrs, ← hcall.type]
  refine hfunction.bind fun w₁ s s' hw₁ hs => ?_
  obtain ⟨hD₁, rfl, hs⟩ := hs
  refine (hc.shapeFunction call.op s hs w₁ hD₁ call.attrs inputs inputs' _
    (hw₁.sameAll hinputs)).bind fun w₂ ts ts' _ hts => ?_
  rw [← hts.2.length_eq]
  split
  · exact pure hts
  · exact fail _

end Setting.SideBySide

/-! ### Fields -/

/-- The tensors of one field, out of tensors that look alike; or the same complaint. -/
theorem projectTensors_alike {ts ts' : List Tensor} (h : w.SameAll ts ts')
    (type : Ty) (i : Nat) :
    (∃ why, projectTensors type ts i = .error why ∧ projectTensors type ts' i = .error why) ∨
      ∃ us us', projectTensors type ts i = .ok us ∧ projectTensors type ts' i = .ok us' ∧
        w.SameAll us us' := by
  unfold projectTensors
  rw [← h.length_eq]
  split
  · split
    · exact Or.inl ⟨_, rfl, rfl⟩
    · next field _ =>
      dsimp only
      split
      · refine Or.inr ⟨_, _, rfl, rfl, ?_⟩
        exact List.forall₂_take _ (List.forall₂_drop _ h)
      · exact Or.inl ⟨_, rfl, rfl⟩
  · exact Or.inl ⟨_, rfl, rfl⟩
  · exact Or.inl ⟨_, rfl, rfl⟩

/-! ### An example -/

/-- What is done alike for each element is done alike for the list. -/
private theorem Setting.SideBySide.mapM_in {α β γ δ : Type} {P : Correspondence → α → β → Prop}
    {Q : Correspondence → γ → δ → Prop} {f : γ → Action σ α} {g : δ → Action σ β}
    (hP : ∀ w w' a b, w.Grows w' → P w a b → P w' a b)
    (hQ : ∀ w w' c d, w.Grows w' → Q w c d → Q w' c d)
    (h : ∀ w', w.Grows w' → D w' → ∀ c d, Q w' c d → k.SideBySideIn D w' P (f c) (g d))
    (hw : D w) {cs : List γ} {ds : List δ} (hcs : List.Forall₂ (Q w) cs ds) :
    k.SideBySideIn D w (fun w => List.Forall₂ (P w)) (cs.mapM f) (ds.mapM g) := by
  induction cs generalizing ds w with
  | nil =>
    obtain rfl := List.forall₂_nil_left_iff.mp hcs
    exact .pure ⟨hw, List.Forall₂.nil⟩
  | cons c cs ih =>
    obtain ⟨d, ds, hcd, hrest, rfl⟩ := List.forall₂_cons_left_iff.mp hcs
    rw [List.mapM_cons, List.mapM_cons]
    refine (h w (.refl w) hw c d hcd).bind fun w₁ a b hw₁ hab => ?_
    have hrest₁ : List.Forall₂ (Q w₁) cs ds := hrest.imp fun c d => hQ w w₁ c d hw₁
    refine (ih (fun w' hw' => h w' (hw₁.trans hw')) hab.1 hrest₁).bind fun w₂ as bs hw₂ has => ?_
    exact .pure ⟨has.1, List.Forall₂.cons (hP w₁ w₂ a b hw₂ hab.2) has.2⟩

section

variable {D : Correspondence → Prop} (k : Setting Unit)
  (hmake : ∀ w w' t t', w.Adds w' t t' → D w → D w')

include hmake

/-- Pointwise implementations do alike under any correspondences that are not left when tensors are
made. -/
theorem Implementation.alikeIn_pointwise (w : Correspondence) (name : String) (priority : Int)
    (workload : Option Workload) :
    (pointwise name priority workload).AlikeIn D k w (pointwise name priority workload) := by
  refine ⟨rfl, rfl, fun w' _ hw' attrs inputs inputs' type type' hinputs htype => ?_⟩
  refine SideBySide.mapM_in (P := Correspondence.Same)
    (Q := fun w => TensorType.Alike w.numbers) (fun _ _ _ _ hw ht => hw.same ht)
    (fun _ _ _ _ hw ht => ⟨forall₂_alike_mono hw.numbers ht.shape, ht.dtype⟩) ?_ hw'
    (Ty.Alike.leaves type type' htype)
  intro w₁ hw₁ hD₁ t t' ht
  rw [← ht.dtype]
  refine (SideBySide.computedFor workload (Or.inr rfl) ht.shape t.dtype name
    (hw₁.sameAll hinputs)).imp ?_
  intro w₂ u u' _ hu
  exact ⟨hmake w₁ w₂ u u' hu hD₁, hu.same⟩

/-- The same for collaborators. -/
theorem Collaborators.alikeIn_pointwise : Collaborators.pointwise.AlikeIn D k := by
  constructor
  · intro op s hs w hw attrs inputs inputs' type type' target _ _
    obtain rfl := Option.some.inj hs
    refine .pure ⟨hw, List.Forall₂.cons ⟨Option.Rel.none, ?_⟩ List.Forall₂.nil⟩
    exact .cons (Implementation.alikeIn_pointwise k hmake w op 10 none) .nil
  · intro op s hs w hw attrs inputs inputs' ranks hinputs
    obtain rfl := Option.some.inj hs
    refine SideBySide.mapM_in (P := Correspondence.Same) (Q := fun _ r r' => r = r')
      (fun _ _ _ _ hw ht => hw.same ht) (fun _ _ _ _ _ hr => hr) ?_ hw
      (List.forall₂_same.mpr fun _ _ => rfl)
    rintro w₁ hw₁ hD₁ r _ rfl
    have hextent : List.Forall₂ (IndexExpr.Alike w₁.numbers) (shapeExtent r) (shapeExtent r) :=
      List.Forall₂.cons (.imm _ _) List.Forall₂.nil
    refine (SideBySide.computed (Or.inr rfl) hextent .int64 op (hw₁.sameAll hinputs)).imp ?_
    intro w₂ u u' _ hu
    exact ⟨hmake w₁ w₂ u u' hu hD₁, hu.same⟩

end

end TensorLowering
