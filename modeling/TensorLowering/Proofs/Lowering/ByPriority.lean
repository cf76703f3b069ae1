import TensorLowering.Proofs.Lowering.Uniform

/-!
# Costs that decide nothing

A lowering that asks for costs computes all candidates of a call, one that does not only the first
of the greatest priority. If all candidates end with values and no finite cost is known for any of
them, then both choose the same one. But the first lowering has made more tensors and symbolic
variables, so from then on everything has other numbers. With equivariant collaborators nothing else
comes of it, as long as it does not depend on the order of these numbers which guards are proved
(`Walk.lower_byPriority`).

Both lowerings walk over one function, and they are compared at each step in a correspondence that
grows (`Progress.Alike`). Where all candidates are computed on the left, the correspondence first
grows on the left alone, up to the one that is chosen; this one is computed on both sides, and then
it grows on the left alone again (`Computes.ends`). What is assumed of the first lowering is assumed
of the calls that it begins, and so the walk has to say where each call is begun
(`Walk.ends_visit`). The assumption about costs holds if all that is offered ends with values and no
answer of the oracle is a finite cost (`Walk.unpriced_of_offers`), or if all calls are dynamic:
then costs are not asked for.
-/

namespace TensorLowering

open Setting TensorLowering.Action

variable {σ : Type} {k : Setting σ} {w w' : Correspondence}

/-! ### Computing on one side -/

/-- What would be done alike may be done on the left alone: then only the left side grows. -/
theorem Setting.SideBySide.left_alone {α β : Type} {P : Correspondence → α → β → Prop}
    {x : Action σ α} {y : Action σ β} {m m' n : Machine σ} {a : α} (h : k.SideBySide w P x y)
    (hw : w.Strict) (hm : k.Holds w m m') (hx : x m = (.ok a, n)) :
    ∃ w', w.Grows w' ∧ w'.Strict ∧ k.Holds w' n m' := by
  have hends := h m m' hm
  rw [hx] at hends
  generalize y m' = s at hends
  cases hends with
  | ok hgrows hn _ =>
    have honto := w.grows_onto hgrows.left (.refl w.right)
    refine ⟨w.onto hgrows.left (.refl w.right), honto, hw.grows honto rfl, ?_⟩
    exact ⟨hn.own, hm.own', hn.oracle, hm.oracle', hn.next, hm.next'⟩

/-- Implementations that compute alike where tensors are told apart. -/
abbrev Implementation.AlikeAt (k : Setting σ) (w : Correspondence)
    (i i' : Implementation σ) : Prop :=
  i.AlikeIn Correspondence.Strict k w i'

section

variable {r r' : CallSite} {target : Target} {is is' : List (Implementation σ)}
  {i i' : Implementation σ} {m m' n : Machine σ} {all : List (List Tensor)} {outputs : List Tensor}

/-- Candidates may be computed on the left alone. -/
private theorem Computes.left_alone (h : Computes r target is m all n)
    (his : List.Forall₂ (Implementation.AlikeAt k w) is is') (hw : w.Strict) (hr : r.Alike w r')
    (hm : k.Holds w m m') : ∃ w', w.Grows w' ∧ w'.Strict ∧ k.Holds w' n m' := by
  induction h generalizing w is' with
  | nil => exact ⟨w, .refl w, hw, hm⟩
  | cons hcompute _ ih =>
    obtain ⟨i', is', hi, hrest, rfl⟩ := List.forall₂_cons_left_iff.mp his
    obtain ⟨w₁, hgrows, hw₁, hm₁⟩ := (SideBySide.computeTraced hi hw hr target).left_alone hw hm
      (computeTraced_of_ok hcompute)
    obtain ⟨w₂, hgrows', hw₂, hm₂⟩ :=
      ih (hrest.imp fun _ _ hj => hj.mono hgrows) hw₁ (hr.mono hgrows) hm₁
    exact ⟨w₂, hgrows.trans hgrows', hw₂, hm₂⟩

/-- **All candidates are computed on the left, and only one of them on the right**: its outputs look
alike. -/
theorem Computes.ends (h : Computes r target is m all n) {j : Nat}
    (houtputs : all[j]? = some outputs) (hi' : is'[j]? = some i')
    (his : List.Forall₂ (Implementation.AlikeAt k w) is is') (hw : w.Strict) (hr : r.Alike w r')
    (hm : k.Holds w m m') :
    k.Ends w (fun w us r => w.Strict ∧ w.SameAll us r.1) (.ok outputs, n)
      (computeTraced i' r' target m') := by
  induction h generalizing w is' j with
  | nil => cases houtputs
  | @cons i is m m₁ n us all hcompute hcomputes ih =>
    obtain ⟨i₁, is', hi, hrest, rfl⟩ := List.forall₂_cons_left_iff.mp his
    have htraced : computeTraced i r target m = _ := computeTraced_of_ok hcompute
    cases j with
    | zero =>
      obtain rfl := Option.some.inj houtputs
      obtain rfl := Option.some.inj hi'
      have hends := SideBySide.computeTraced hi hw hr target m m' hm
      rw [htraced] at hends
      generalize computeTraced _ r' target m' = s at hends
      cases hends with
      | ok hgrows hm₁ hsame =>
        -- the ones behind it are computed on the left alone
        obtain ⟨w₂, hgrows', hw₂, hm₂⟩ := hcomputes.left_alone
          (hrest.imp fun _ _ hj => hj.mono hgrows) hsame.1 (hr.mono hgrows) hm₁
        exact .ok (hgrows.trans hgrows') hm₂ ⟨hw₂, hgrows'.sameAll hsame.2.1⟩
    | succ j =>
      obtain ⟨w₁, hgrows, hw₁, hm₁⟩ :=
        (SideBySide.computeTraced hi hw hr target).left_alone hw hm htraced
      have hrest₁ := hrest.imp fun _ _ hj => hj.mono hgrows
      exact .before hgrows (ih houtputs hi' hrest₁ hw₁ (hr.mono hgrows) hm₁)

/-! ### The choice -/

/-- Where no cost is known, costs choose what priority chooses. -/
private theorem select_of_no_cost {j : Nat} (hbest : FirstBest Outranks is j i)
    (hcomputes : Computes r target is m all n) (houtputs : all[j]? = some outputs)
    (hnone : ∀ us ∈ all, tunedCost? m.tuning.oracle target us = none) :
    select is r target true m = (.ok (i, outputs), n) := by
  refine select_true_iff.mpr ⟨all, j, hcomputes, hbest.here, houtputs, Or.inr ⟨?_, hbest⟩⟩
  exact List.forall_mem_map.mpr hnone

/-- The first of the greatest priority stands at one position on both sides. -/
private theorem FirstBest.outranks_unique {j j' : Nat} (h : FirstBest Outranks is j i)
    (h' : FirstBest Outranks is' j' i') (his : List.Forall₂ (Implementation.AlikeAt k w) is is') :
    j = j' := by
  have hpriorities : is.map Implementation.priority = is'.map Implementation.priority := by
    rw [← List.forall₂_eq_eq_eq, List.forall₂_map_left_iff, List.forall₂_map_right_iff]
    exact his.imp fun _ _ hi => hi.priority
  have hmap := h.map (R := fun p q : Int => q < p) Implementation.priority
  rw [hpriorities] at hmap
  exact (hmap.unique (h'.map (R := fun p q : Int => q < p) Implementation.priority)).1

/-- **Costs on the left choose what priority chooses on the right**, if all candidates were computed
and no cost is known. -/
theorem Computes.ends_select (h : Computes r target is m all n)
    (hnone : ∀ us ∈ all, tunedCost? k.oracle target us = none)
    (his : List.Forall₂ (Implementation.AlikeAt k w) is is') (hw : w.Strict) (hr : r.Alike w r')
    (hm : k.Holds w m m') :
    k.Ends w (fun w a b => w.Strict ∧ SideBySide.Chosen w a b) (select is r target true m)
      (select is' r' target false m') := by
  obtain ⟨hbest, -⟩ | ⟨best, best', hbest, hbest', halike⟩ :=
    optionRel_cases (Implementation.AlikeIn.firstByPriority? his)
  · obtain rfl := firstByPriority?_eq_none_iff.mp hbest
    obtain rfl := List.forall₂_nil_left_iff.mp his
    simp only [select, firstByPriority?, hr.op]
    exact .fault _ m m'
  · obtain ⟨j, hj⟩ := firstByPriority?_firstBest hbest
    obtain ⟨j', hj'⟩ := firstByPriority?_firstBest hbest'
    obtain rfl := hj.outranks_unique hj' his
    have hlt : j < all.length := h.length ▸ (List.getElem?_eq_some_iff.mp hj.here).1
    have houtputs := List.getElem?_eq_getElem hlt
    have hright : select is' r' target false m' =
        (computeTraced best' r' target >>= fun o => pure (best', o.1)) m' := by
      simp only [select, hbest']
      rfl
    rw [select_of_no_cost hj h houtputs (hm.oracle ▸ hnone), hright]
    have hends := h.ends houtputs hj'.here his hw hr hm
    generalize hcomputed : computeTraced best' r' target m' = s at hends
    cases hends with
    | ok hgrows hn hsame =>
      rw [bind_of_ok hcomputed]
      exact .ok hgrows hn ⟨hsame.1, halike.name, halike.priority, hsame.2⟩

end

/-! ### Calls -/

/-- Two walks over one graph have found what looks alike. -/
structure Progress.Alike (w : Correspondence) (s s' : Progress) : Prop where
  memo : ∀ i, Option.Rel w.SameAll (s.memo.lookup i) (s'.memo.lookup i)
  bound : ∀ x, Option.Rel w.SameAll (s.bound.lookup x) (s'.bound.lookup x)
  calls : List.Forall₂ (LoweredCall.Alike w) s.calls s'.calls
  ops : s.ops = s'.ops

namespace Progress.Alike

variable {s s' : Progress} {ts ts' : List Tensor}

theorem mono (hw : w.Grows w') (h : s.Alike w s') : s.Alike w' s' :=
  ⟨fun i => Walk.optionRel_mono hw (h.memo i), fun x => Walk.optionRel_mono hw (h.bound x),
    h.calls.imp fun _ _ hc => hc.mono hw, h.ops⟩

private theorem remember (h : s.Alike w s') (id : Nat) (hts : w.SameAll ts ts') :
    (s.remember id ts).Alike w (s'.remember id ts') :=
  ⟨fun i => Walk.optionRel_lookup_cons hts fun _ => h.memo i, h.bound, h.calls, h.ops⟩

/-- What was found stays alike when tensors that look alike are bound. -/
theorem bind (h : s.Alike w s') (v : Var) (hts : w.SameAll ts ts') :
    (s.bind v ts).Alike w (s'.bind v ts') :=
  ⟨h.memo, fun x => Walk.optionRel_lookup_cons hts fun _ => h.bound x, h.calls, h.ops⟩

private theorem reach (h : s.Alike w s') (op : String) : (s.reach op).Alike w (s'.reach op) :=
  ⟨h.memo, h.bound, h.calls, congrArg (op :: ·) h.ops⟩

private theorem choose (h : s.Alike w s') {c c' : LoweredCall} (hc : c.Alike w c') (op : String) :
    ((s.reach op).choose c).Alike w ((s'.reach op).choose c') :=
  ⟨h.memo, h.bound, .cons hc h.calls, congrArg (op :: ·) h.ops⟩

/-- At the start only the parameters are bound. -/
theorem start (xs : List Var) {tss tss' : List (List Tensor)}
    (h : List.Forall₂ w.SameAll tss tss') :
    (Progress.start.bindAll (xs.zip tss)).Alike w (Progress.start.bindAll (xs.zip tss')) := by
  obtain ⟨hmemo, hcalls, hops⟩ := Progress.start.bindAll_memo (xs.zip tss)
  obtain ⟨hmemo', hcalls', hops'⟩ := Progress.start.bindAll_memo (xs.zip tss')
  refine ⟨fun i => ?_, fun x => Progress.optionRel_bindAll h .none, ?_, hops.trans hops'.symm⟩
  · rw [hmemo, hmemo']
    exact .none
  · rw [hcalls, hcalls']
    exact .nil

end Progress.Alike

namespace Walk

/-- The walk that asks for no costs. -/
def byPriority (v : Walk σ) : Walk σ := { v with useCosts := false }

/-- What two visits have found: tensors that look alike, and what looks alike besides. -/
structure Found (w : Correspondence) (r r' : List Tensor × Progress) : Prop where
  strict : w.Strict
  same : w.SameAll r.1 r'.1
  alike : r.2.Alike w r'.2

/-- **No cost decides about the call**: if costs are asked for, then all its candidates end with
values, and the oracle knows no finite cost for any of them. -/
def Unpriced (v : Walk σ) (oracle : Oracle) (c : Begun σ) : Prop :=
  v.asksCosts c.node.call = true → ∀ i r n, .implementation i r n ∈ v.invocations c →
    ∃ outputs, (Invocation.implementation i r n).outputs? = some outputs ∧
      tunedCost? oracle v.target outputs = none

/-- That is so of all calls if everything that is offered ends with values, and the oracle never
answers with a finite cost. -/
theorem unpriced_of_offers {v : Walk σ} {oracle : Oracle}
    (hends : ∀ r i, v.collaborators.Offers r i → ∀ m, ∃ outputs n,
      i.compute r.attrs r.inputs r.type m = (.ok outputs, n))
    (hcosts : ∀ w, (oracle v.target w).finiteCost? = none) (c : Begun σ) : v.Unpriced oracle c := by
  intro _ i r m hi
  obtain ⟨outputs, n, hrun⟩ := hends r i (offers_of_mem_invocations hi) m
  refine ⟨outputs, Invocation.outputs?_of_ok hrun, ?_⟩
  exact Option.bind_eq_none_iff.mpr fun w _ => hcosts w

variable {v : Walk σ} {call : Call} {site site' : CallSite} {m m' : Machine σ}

private theorem ends_choose (hv : v.collaborators.Equivariant k) (hw : w.Strict)
    (hsite : site.Alike w site') (hm : k.Holds w m m')
    (hguards : ∀ e, v.collaborators.Guards site v.target m e → e.Steady)
    (hcosts : v.asksCosts call = true → ∀ i n, .implementation i site n ∈ v.selecting call site m →
      ∃ outputs, (Invocation.implementation i site n).outputs? = some outputs ∧
        tunedCost? k.oracle v.target outputs = none) :
    k.Ends w (fun w a b => w.Strict ∧ LoweredCall.Alike w a b) (v.choose call site m)
      (v.byPriority.choose call site' m') := by
  have hcandidates := SideBySide.ends_candidates hv hw hsite v.target hm
    fun e he => (hguards e he).decides _
  refine hcandidates.bind fun w₁ is is' n n' hrun hgrows hn his => ?_
  have hsite₁ := hsite.mono hgrows
  have hselect : k.Ends w₁ (fun w a b => w.Strict ∧ SideBySide.Chosen w a b)
      (select is site v.target (v.asksCosts call) n) (select is' site' v.target false n') := by
    cases hasks : v.asksCosts call with
    | false => exact SideBySide.select his.2 his.1 hsite₁ v.target false n n' hn
    | true =>
      have hall : computing site v.target is n ⊆ v.selecting call site m := by
        have hdue : computing site v.target (due is (v.asksCosts call)) n ⊆ _ :=
          computing_subset_selecting hrun
        rwa [hasks] at hdue
      obtain ⟨all, n₁, hcomputes, hnone⟩ := exists_computes fun i n hi =>
        hcosts hasks i n (hall hi)
      exact hcomputes.ends_select hnone his.2 his.1 hsite₁ hn
  refine hselect.bind fun w₂ a b n₂ n₂' _ _ hn₂ hab => ?_
  exact .ok (.refl w₂) hn₂ ⟨hab.1, hab.2.1, hab.2.2.1, hab.2.2.2⟩

/-- **A call is lowered alike**, whether costs are asked for or not, if the guards that are offered
are steady and no cost decides about it. -/
theorem ends_lowerCall (hv : v.collaborators.Equivariant k) (haspect : v.aspect = .values)
    {c : Begun σ} (hsteady : v.Steady c) (hcosts : v.Unpriced k.oracle c) (hw : w.Strict)
    (htype : Ty.Alike w.numbers c.node.call.type c.node.call.type) {inputs' : List Tensor}
    (hinputs : w.SameAll c.inputs inputs') (hm : k.Holds w c.machine m') :
    k.Ends w (fun w a b => w.Strict ∧ LoweredCall.Alike w a b)
      (lowerCall v.collaborators v.target v.useCosts c.node.call c.inputs c.machine)
      (lowerCall v.collaborators v.target false c.node.call inputs' m') := by
  refine ends_lowerCall_of_choose Correspondence.closed_strict hw ⟨rfl, rfl, rfl, rfl⟩ htype hinputs
    hm false fun w₁ type next site' n' hw₁ hsite hnormal hn => ?_
  refine ends_choose hv hw₁ hsite hn (fun e he => hsteady.of_guards haspect hnormal he) ?_
  intro hasks i n hi
  refine hcosts hasks i (c.site type) n ?_
  rw [invocations_of_ok haspect hnormal]
  exact hi

/-- The same for what is lowered of a call: its value or its shapes. -/
private theorem ends_finishCall (hv : v.collaborators.Equivariant k) {c : Begun σ}
    (hsteady : v.Steady c) (hcosts : v.Unpriced k.oracle c) (hw : w.Strict)
    (htype : Ty.Alike w.numbers c.node.call.type c.node.call.type) {inputs' : List Tensor}
    (hinputs : w.SameAll c.inputs inputs') (hm : k.Holds w c.machine m') {s s' : Progress}
    (hs : s.Alike w s') :
    k.Ends w Found (v.finishCall s c.node.call c.inputs c.machine)
      (v.byPriority.finishCall s' c.node.call inputs' m') := by
  cases haspect : v.aspect with
  | values =>
    have hcall := ends_lowerCall hv haspect hsteady hcosts hw htype hinputs hm
    simp only [finishCall, byPriority, haspect]
    refine hcall.bind fun w₁ a b n n' _ hgrows hn hab => ?_
    exact .ok (.refl w₁) hn ⟨hab.1, hab.2.outputs, (hs.mono hgrows).choose hab.2 _⟩
  | shapes =>
    have hsame : c.node.call.Alike c.node.call := ⟨rfl, rfl, rfl, rfl⟩
    have hcall := SideBySide.callShapeFunction_in hv hw hsame hinputs
    simp only [finishCall, byPriority, haspect]
    refine (hcall c.machine m' hm).bind fun w₁ a b n n' _ hgrows hn hab => ?_
    exact .ok (.refl w₁) hn ⟨hab.1, hab.2, (hs.mono hgrows).reach _⟩

/-! ### The walk -/

/-- Constants of one type look alike, if old symbolic variables correspond to themselves. -/
private theorem sideBySide_constantTensor {old : Nat} (hw : w.Strict)
    (hold : ∀ i : SymId, i.draw < old → w.numbers i i) {t : TensorType} (ht : t.Below old)
    (a : Aspect) :
    k.SideBySideIn Correspondence.Strict w Correspondence.Same (constantTensor a t)
      (constantTensor a t) := by
  cases a with
  | values =>
    refine SideBySide.bind (.takeNumbers fun lots lots' =>
      Correspondence.draws_normalizeShape (ht.alike hold).shape) ?_
    intro w₁ shape shape' hgrows hs
    have hw₁ : w₁.Strict := hw.grows hgrows hs.1
    refine (SideBySide.placeholder (Or.inr rfl) hs.2 t.dtype).imp fun w₂ u u' _ hu => ?_
    exact ⟨hw₁.adds hu, hu.same⟩
  | shapes =>
    have hextent : List.Forall₂ (IndexExpr.Alike w.numbers) (shapeExtent t.rank)
        (shapeExtent t.rank) := .cons (.imm _ _) .nil
    refine (SideBySide.computed (Or.inr rfl) hextent .int64 _ .nil).imp fun w₁ u u' _ hu => ?_
    exact ⟨hw.adds hu, hu.same⟩

section

variable {f : Function} {old : Nat} {s s' : Progress} {n n' : Machine σ}

/-- A visit ends with what was kept on both sides, or the node is lowered on both sides. -/
theorem ends_meet {e : Expr} (hw : w.Strict) (hs : s.Alike w s') (hn : k.Holds w n n')
    (hnode : s.memo.lookup e.id = none →
      k.Ends w Found (v.lowerNode s e n) (v.byPriority.lowerNode s' e n')) :
    k.Ends w Found (v.visit s e n) (v.byPriority.visit s' e n') := by
  obtain ⟨hlookup, hlookup'⟩ | ⟨ts, ts', hlookup, hlookup', hts⟩ := optionRel_cases (hs.memo e.id)
  · rw [v.visit_of_lookup_none hlookup, v.byPriority.visit_of_lookup_none hlookup']
    refine (hnode hlookup).bind fun w₁ a b n₁ n₁' _ _ hn₁ hab => ?_
    exact .ok (.refl w₁) hn₁ ⟨hab.strict, hab.same, hab.alike.remember e.id hab.same⟩
  · rw [v.visit_of_lookup hlookup, v.byPriority.visit_of_lookup hlookup']
    exact .ok (.refl w) hn ⟨hw, hts, hs⟩

mutual

/-- **What is lowered with costs and by priority alone is alike**, if for the calls that are begun
the guards that are offered are steady and no cost decides. -/
theorem ends_visit (hv : v.collaborators.Equivariant k) (hf : f.Below old) : (e : Expr) →
    e.Within f.body → ∀ {w : Correspondence} {s s' : Progress} {n n' : Machine σ}, w.Strict →
    (∀ i : SymId, i.draw < old → w.numbers i i) → s.Alike w s' → k.Holds w n n' →
    (∀ c, Visit.Begins v ⟨s, n, e⟩ c → v.Steady c ∧ v.Unpriced k.oracle c) →
    s.memo.lookup e.id = none →
    k.Ends w Found (v.lowerNode s e n) (v.byPriority.lowerNode s' e n')
  | .var id x, _, w, s, s', n, n', hw, _, hs, hn, _, _ => by
    unfold lowerNode
    dsimp only
    obtain ⟨hbound, hbound'⟩ | ⟨ts, ts', hbound, hbound', hts⟩ := optionRel_cases (hs.bound x.id)
    · rw [hbound, hbound']
      exact .fault _ n n'
    · rw [hbound, hbound']
      exact .ok (.refl w) hn ⟨hw, hts, hs⟩
  | .const id t data, he, w, s, s', n, n', hw, hold, hs, hn, _, _ => by
    have hconst := sideBySide_constantTensor (k := k) hw hold (hf.constants id t data he) v.aspect
    refine (hconst n n' hn).bind fun w₁ a b n₁ n₁' _ hgrows hn₁ hab => ?_
    exact .ok (.refl w₁) hn₁ ⟨hab.1, .cons hab.2 .nil, hs.mono hgrows⟩
  | .call id op attrs args type, he, w, s, s', n, n', hw, hold, hs, hn, hcalls, hmiss => by
    let c : CallNode := ⟨id, ⟨op, attrs, args, type⟩⟩
    have hbegins := begins_iff_call (w := v) (n := n) (c := c) hmiss
    have hargs := ends_visitAll hv hf args
      (fun a ha => .trans (.call id op attrs type ha (.refl a)) he) hw hold hs hn
      fun d hd => hcalls d ((hbegins d).mp (Or.inl hd))
    refine hargs.bind fun w₁ a b n₁ n₁' hrun hgrows hn₁ hab => ?_
    have hold₁ (i : SymId) (hi : i.draw < old) : w₁.numbers i i := hgrows.numbers i i (hold i hi)
    have hbegun := hcalls ⟨c, a.1, n₁⟩ ((hbegins _).mp (Or.inr ⟨a.1, a.2, n₁, hrun, rfl⟩))
    exact ends_finishCall hv hbegun.1 hbegun.2 hab.strict
      (Ty.Below.alike hold₁ type (hf.calls id op attrs args type he)) hab.same hn₁ hab.alike
  | .tuple id fields, he, w, s, s', n, n', hw, hold, hs, hn, hcalls, hmiss =>
    ends_visitAll hv hf fields (fun a ha => .trans (.tuple id ha (.refl a)) he) hw hold hs hn
      fun d hd => hcalls d ((begins_iff_parts hmiss rfl nofun nofun d).mp hd)
  | .proj id e i, he, w, s, s', n, n', hw, hold, hs, hn, hcalls, hmiss => by
    have hpart (d : Begun σ) (hd : Visit.Begins v ⟨s, n, e⟩ d) :
        v.Steady d ∧ v.Unpriced k.oracle d := by
      have hamong : Visit.BeginsAmong v s [e] n d := Visit.beginsAmong_singleton_iff.mpr hd
      exact hcalls d ((begins_iff_parts hmiss rfl nofun nofun d).mp hamong)
    have hvisit := ends_meet hw hs hn
      (ends_visit hv hf e (.trans (.proj id i (.refl e)) he) hw hold hs hn hpart)
    refine hvisit.bind fun w₁ a b n₁ n₁' _ _ hn₁ hab => ?_
    dsimp only
    obtain ⟨why, ha, hb⟩ | ⟨us, us', ha, hb, hus⟩ := projectTensors_alike hab.same e.type i
    · rw [ha, hb]
      exact .fault _ n₁ n₁'
    · rw [ha, hb]
      exact .ok (.refl w₁) hn₁ ⟨hab.strict, hus, hab.alike⟩
  | .letIn id x value body, he, w, s, s', n, n', hw, hold, hs, hn, hcalls, hmiss => by
    have hbegins (d : Begun σ) : (Visit.Begins v ⟨s, n, value⟩ d ∨ _) ↔
        Visit.Begins v ⟨s, n, .letIn id x value body⟩ d := begins_iff_letIn hmiss d
    have hvalue := ends_meet hw hs hn
      (ends_visit hv hf value (.trans (.letValue id x body (.refl _)) he) hw hold hs hn
        fun d hd => hcalls d ((hbegins d).mp (Or.inl hd)))
    refine hvalue.bind fun w₁ a b n₁ n₁' hrun hgrows hn₁ hab => ?_
    have hs₁ := hab.alike.bind x hab.same
    exact ends_meet hab.strict hs₁ hn₁ (ends_visit hv hf body
      (.trans (.letBody id x value (.refl _)) he) hab.strict
      (fun i hi => hgrows.numbers i i (hold i hi)) hs₁ hn₁
      fun d hd => hcalls d ((hbegins d).mp (Or.inr ⟨a.1, a.2, n₁, hrun, hd⟩)))

/-- The same for several nodes. -/
theorem ends_visitAll (hv : v.collaborators.Equivariant k) (hf : f.Below old) : (es : List Expr) →
    (∀ e ∈ es, e.Within f.body) → ∀ {w : Correspondence} {s s' : Progress} {n n' : Machine σ},
    w.Strict → (∀ i : SymId, i.draw < old → w.numbers i i) → s.Alike w s' → k.Holds w n n' →
    (∀ c, Visit.BeginsAmong v s es n c → v.Steady c ∧ v.Unpriced k.oracle c) →
    k.Ends w Found (v.visitAll s es n) (v.byPriority.visitAll s' es n')
  | [], _, w, _, _, _, _, hw, _, hs, hn, _ => .ok (.refl w) hn ⟨hw, .nil, hs⟩
  | e :: es, hes, w, s, s', n, n', hw, hold, hs, hn, hcalls => by
    have hfirst := ends_meet hw hs hn (ends_visit hv hf e (hes e List.mem_cons_self) hw hold hs hn
      fun d hd => hcalls d (Visit.beginsAmong_cons_iff.mpr (Or.inl hd)))
    refine hfirst.bind fun w₁ a b n₁ n₁' hrun hgrows hn₁ hab => ?_
    have hrest := ends_visitAll hv hf es (fun d hd => hes d (List.mem_cons_of_mem e hd)) hab.strict
      (fun i hi => hgrows.numbers i i (hold i hi)) hab.alike hn₁
      fun d hd => hcalls d (Visit.beginsAmong_cons_iff.mpr (Or.inr ⟨a.1, a.2, n₁, hrun, hd⟩))
    refine hrest.bind fun w₂ c d n₂ n₂' _ hgrows' hn₂ hcd => ?_
    exact .ok (.refl w₂) hn₂
      ⟨hcd.strict, List.rel_append (hgrows'.sameAll hab.same) hcd.same, hcd.alike⟩

end

end

/-! ### Dynamic calls -/

/-- For a dynamic call costs are not asked for. -/
private theorem finishCall_of_isDynamic (v : Walk σ) {call : Call} (h : call.isDynamic = true)
    (s : Progress) (inputs : List Tensor) :
    v.finishCall s call inputs = v.byPriority.finishCall s call inputs := by
  simp only [finishCall, byPriority, lowerCall, h, Bool.not_true, Bool.and_false]

private theorem visit_of_lowerNode {s : Progress} {e : Expr}
    (h : v.lowerNode s e = v.byPriority.lowerNode s e) : v.visit s e = v.byPriority.visit s e := by
  cases hlookup : s.memo.lookup e.id with
  | some ts => rw [v.visit_of_lookup hlookup, v.byPriority.visit_of_lookup hlookup]
  | none => rw [v.visit_of_lookup_none hlookup, v.byPriority.visit_of_lookup_none hlookup, h]

mutual

/-- Where all calls are dynamic, the walks do the same. -/
theorem lowerNode_of_isDynamic (v : Walk σ) : (e : Expr) →
    (∀ c : CallNode, c.expr.Within e → c.call.isDynamic = true) → ∀ s : Progress,
    v.lowerNode s e = v.byPriority.lowerNode s e
  | .var .., _, _ | .const .., _, _ => rfl
  | .call id op attrs args type, h, s => by
    have hcall : Call.isDynamic ⟨op, attrs, args, type⟩ = true :=
      h ⟨id, ⟨op, attrs, args, type⟩⟩ (.refl _)
    simp only [lowerNode, v.finishCall_of_isDynamic hcall]
    rw [visitAll_of_isDynamic v args (fun a ha c hc => h c (.call id op attrs type ha hc)) s]
  | .tuple id fields, h, s =>
    visitAll_of_isDynamic v fields (fun a ha c hc => h c (.tuple id ha hc)) s
  | .proj id e i, h, s => by
    simp only [lowerNode]
    rw [visit_of_lowerNode (lowerNode_of_isDynamic v e (fun c hc => h c (.proj id i hc)) s)]
  | .letIn id x value body, h, s => by
    have hbody (s : Progress) := visit_of_lowerNode
      (lowerNode_of_isDynamic v body (fun c hc => h c (.letBody id x value hc)) s)
    simp only [lowerNode, hbody]
    rw [visit_of_lowerNode
      (lowerNode_of_isDynamic v value (fun c hc => h c (.letValue id x body hc)) s)]

/-- The same for several nodes. -/
theorem visitAll_of_isDynamic (v : Walk σ) : (es : List Expr) →
    (∀ e ∈ es, ∀ c : CallNode, c.expr.Within e → c.call.isDynamic = true) → ∀ s : Progress,
    v.visitAll s es = v.byPriority.visitAll s es
  | [], _, _ => by rw [visitAll, visitAll]
  | e :: es, h, s => by
    have hrest (s : Progress) :=
      visitAll_of_isDynamic v es (fun d hd => h d (List.mem_cons_of_mem e hd)) s
    simp only [visitAll, hrest]
    rw [visit_of_lowerNode (lowerNode_of_isDynamic v e (h e List.mem_cons_self) s)]

end

/-! ### From end to end -/

/-- The placeholders of the parameters do not depend on costs. -/
private theorem bindParams_byPriority (v : Walk σ) (s : Progress) (xs : List Var) :
    v.byPriority.bindParams s xs = v.bindParams s xs := by
  induction xs generalizing s with
  | nil => rfl
  | cons x xs ih =>
    simp only [bindParams, ih]
    rfl

/-- If all calls are dynamic, costs are of no consequence at all. -/
private theorem lower_of_isDynamic (v : Walk σ) {f : Function}
    (h : ∀ c : CallNode, c.expr.Within f.body → c.call.isDynamic = true) :
    v.lower f = v.byPriority.lower f := by
  have hvisit (s : Progress) : v.visit s f.body = v.byPriority.visit s f.body :=
    visit_of_lowerNode (lowerNode_of_isDynamic v f.body h s)
  simp only [lower, hvisit, bindParams_byPriority]

/-- Calls that are begun belong to the function. -/
private theorem Begins.within {f : Function} {c : Begun σ} (h : v.Begins f m c) :
    c.node.expr.Within f.body := by
  obtain ⟨a, hvisits, hat⟩ := h
  exact hat.node ▸ hvisits.within

/-- For a dynamic call no cost decides. -/
private theorem unpriced_of_isDynamic {oracle : Oracle} {c : Begun σ}
    (h : c.node.call.isDynamic = true) : v.Unpriced oracle c := by
  intro hasks
  rw [asksCosts, h, Bool.not_true, Bool.and_false] at hasks
  cases hasks

/-- What is lowered is alike if the bodies were, with placeholders that are known by their
positions. -/
private theorem loweredAlike_of_found {old : Nat} {inputs inputs' : List Tensor} {n n' : Machine σ}
    {x y : Action σ (List Tensor × Progress)} (hinputs : w.SameAll inputs inputs')
    (hsame : (w.withInputs inputs inputs' hinputs).SameAll inputs inputs')
    (hold : ∀ i : SymId, i.draw < old → w.numbers i i)
    (h : k.Ends (w.withInputs inputs inputs' hinputs) Found (x n) (y n')) :
    LoweredAlike old
      ((x >>= fun r => pure ⟨inputs, r.1, r.2.calls.reverse, r.2.ops.reverse⟩) n).1
      ((y >>= fun r => pure ⟨inputs', r.1, r.2.calls.reverse, r.2.ops.reverse⟩) n').1 := by
  refine h.outcomes (LoweredAlike.lifts old) fun w' a b _ _ _ hgrows _ hfound => ?_
  have halike := Lowered.alike_of_same hinputs hgrows hsame hfound.same hfound.alike.calls
    a.2.ops.reverse
  refine .ok w'.biUnique (fun i hi => hgrows.numbers i i (hold i hi)) ?_
  rwa [hfound.alike.ops] at halike ⊢

/-- If the guards that are offered are steady and no cost decides about the calls that are begun,
then what is lowered is alike. -/
private theorem loweredAlike_of_unpriced {f : Function} {m m' : Machine σ} {old : Nat}
    (hv : v.collaborators.Equivariant k) (hbelow : f.Below old) (hw : w.Strict)
    (hholds : k.Holds w m m') (hold : ∀ i : SymId, i.draw < old → w.numbers i i)
    (hcalls : ∀ c, v.Begins f m c → v.Steady c ∧ v.Unpriced k.oracle c) :
    LoweredAlike old (v.lower f m).1 (v.byPriority.lower f m').1 := by
  have hparams := SideBySide.bindParams Correspondence.closed_strict hw hold v .start .start
    (Or.inr (Eq.refl (f.params.map Var.name))) (Eq.refl (f.params.map Var.type)) hbelow.params
    m m' hholds
  rw [← congrFun (bindParams_byPriority v .start f.params) m'] at hparams
  refine hparams.outcomes (LoweredAlike.lifts old) fun w₁ _ _ n n' hstart hgrows hn hbound => ?_
  obtain ⟨hw₁, tss, tss', hlen, hsame, hnew, rfl, rfl⟩ := hbound
  have hold₁ (i : SymId) (hi : i.draw < old) : w₁.numbers i i := hgrows.numbers i i (hold i hi)
  -- from here on the placeholders of the parameters are known by their positions
  let w₂ := w₁.withInputs tss.flatten tss'.flatten hnew.same
  have hw₂ : w₂.Strict := hw₁.withInputs hnew.same
  have hs := Progress.Alike.start (w := w₂) f.params (hnew.sameAll_withInputs hsame)
  have hn₂ : k.Holds w₂ n n' := ⟨hn.own, hn.own', hn.oracle, hn.oracle', hn.next, hn.next'⟩
  have hvisit := ends_meet hw₂ hs hn₂ (ends_visit hv hbelow f.body (.refl _) hw₂ hold₁ hs hn₂
    fun c hc => hcalls c ((begins_iff_body hstart).mp hc))
  exact loweredAlike_of_found hnew.same hnew.same_withInputs hold₁ hvisit

/-- **Costs that decide nothing may as well not be asked for.** With equivariant collaborators, if
the guards that are offered are steady, and no cost decides about the calls that are begun or all
calls are dynamic, then what is lowered is alike with costs and by priority alone, also on machines
that draw other lots and differ in what was made before. On one machine, if all calls are dynamic
the walks do the same with any collaborators and guards, whatever the oracle answers. -/
theorem lower_byPriority (v : Walk σ) {f : Function} {m m' : Machine σ} {old : Nat}
    (hbelow : f.Below old) (hown : m'.own = m.own)
    (horacle : m'.tuning.oracle = m.tuning.oracle) (hm : old ≤ m.next) (hm' : old ≤ m'.next) :
    (v.collaborators.Equivariant ⟨m.own, m.tuning.oracle⟩ →
        (v.aspect = .values → ∀ c, v.Begins f m c → v.Steady c) →
        ((∀ c, v.Begins f m c → v.Unpriced m.tuning.oracle c) ∨
          ∀ c : CallNode, c.expr.Within f.body → c.call.isDynamic = true) →
        LoweredAlike old (v.lower f m).1 (v.byPriority.lower f m').1) ∧
      ((∀ c : CallNode, c.expr.Within f.body → c.call.isDynamic = true) →
        v.lower f = v.byPriority.lower f) := by
  refine ⟨fun hv hsteady hcosts => ?_, v.lower_of_isDynamic⟩
  let w : Correspondence := .start (fun _ _ => False) old m.next m'.next hm hm'
  have hw : w.Strict := ⟨⟨nofun, nofun⟩, nofun, nofun, nofun⟩
  have hholds : Setting.Holds ⟨m.own, m.tuning.oracle⟩ w m m' :=
    ⟨rfl, hown, rfl, horacle, rfl, rfl⟩
  refine loweredAlike_of_unpriced hv hbelow hw hholds (fun i hi => ⟨rfl, hi⟩) fun c hc => ?_
  refine ⟨steady_of_values fun haspect => hsteady haspect c hc, ?_⟩
  obtain hcosts | hdynamic := hcosts
  · exact hcosts c hc
  · exact unpriced_of_isDynamic (hdynamic c.node (Begins.within hc))

end Walk

/-! ### An example -/

/-- What always ends with a value for one element does so for several. -/
private theorem exists_mapM {α β : Type} {f : α → Action σ β} (h : ∀ a m, ∃ b n, f a m = (.ok b, n))
    (as : List α) (m : Machine σ) : ∃ bs n, as.mapM f m = (.ok bs, n) := by
  induction as generalizing m with
  | nil => exact ⟨[], m, rfl⟩
  | cons a as ih =>
    obtain ⟨b, m₁, hfirst⟩ := h a m
    obtain ⟨bs, n, hrest⟩ := ih m₁
    refine ⟨b :: bs, n, ?_⟩
    rw [List.mapM_cons, bind_of_ok hfirst, bind_of_ok hrest]
    rfl

private theorem Collaborators.ends_of_offers_twoWays
    {condition : List Tensor → Option (List IndexExpr)} {r : CallSite} {i : Implementation Unit}
    (h : (twoWays condition).Offers r i) (m : Machine Unit) :
    ∃ outputs n, i.compute r.attrs r.inputs r.type m = (.ok outputs, n) := by
  have hpointwise (name : String) (priority : Int) (workload : Option Workload) : ∃ outputs n,
      (Implementation.pointwise name priority workload).compute r.attrs r.inputs r.type m =
        (.ok outputs, n) := exists_mapM (fun _ m => ⟨_, _, rfl⟩) _ m
  obtain ⟨own, s, hs, target, m', offer, n, hrun, sp, hsp, hi⟩ := h
  obtain rfl := Option.some.inj hs
  obtain rfl := Outcome.ok.inj (Prod.mk.inj hrun).1
  obtain rfl | hsp := List.mem_cons.mp hsp
  · obtain rfl := List.mem_singleton.mp hi
    exact hpointwise _ _ _
  · obtain rfl := List.mem_singleton.mp hsp
    obtain rfl := List.mem_singleton.mp hi
    exact hpointwise _ _ _

/-- An oracle knows an infinite cost of sums, and no other. For a function with a symbolic dimension
two implementations are computed where priority alone computes one, and what is lowered is alike,
whatever lots are drawn. The oracle knows a finite cost, but all calls are dynamic: what is lowered
is alike, and the same on one machine. -/
theorem Walk.lower_byPriority_infinite :
    let static : Ty := .tensor ⟨[.var ⟨3, "n", .int32⟩, .imm 2 .int64], .float 32⟩
    let dynamic : Ty := .tensor ⟨[.unknown, .imm 2 .int64], .float 32⟩
    let f (type : Ty) := Function.twoScopes ⟨0, "x", type⟩ ⟨1, "y", type⟩ ⟨2, "z", type⟩
    let v : Walk Unit := ⟨.twoWays fun _ => none, ⟨.llvm, .empty⟩, true, .values⟩
    let oracle (cost : Binary64) : Oracle :=
      fun _ w => if w.name = "add.safe" then .tuned cost 0 else .fallback
    let m (cost : Binary64) (lot : Nat) : Machine Unit :=
      { Machine.initial () (4 + lot) fun _ => lot with tuning := ⟨oracle cost, [], none⟩ }
    let infinity : Binary64 := ⟨0x7ff0000000000000⟩
    let four : Binary64 := ⟨0x4010000000000000⟩
    LoweredAlike 4 (v.lower (f static) (m infinity 0)).1
        (v.byPriority.lower (f static) (m infinity 9)).1 ∧
      (∃ c, v.Begins (f static) (m infinity 0) c ∧
        (v.invocations c).length = 3 ∧ (v.byPriority.invocations c).length = 2) ∧
      LoweredAlike 4 (v.lower (f dynamic) (m four 0)).1
        (v.byPriority.lower (f dynamic) (m four 9)).1 ∧
      v.lower (f dynamic) (m four 0) = v.byPriority.lower (f dynamic) (m four 0) := by
  intro static dynamic f v oracle m infinity four
  have hbelow (e : IndexExpr) (he : e.Below 4) :
      (f (.tensor ⟨[e, .imm 2 .int64], .float 32⟩)).Below 4 := by
    refine Function.twoScopes_below fun leaf hleaf => ?_
    obtain rfl := List.mem_singleton.mp hleaf
    exact List.forall_mem_cons.mpr ⟨he, List.forall_mem_singleton.mpr trivial⟩
  have hboth (type : Ty) (cost : Binary64) (htype : (f type).Below 4) :=
    @Walk.lower_byPriority Unit v (f type) (m cost 0) (m cost 9) 4 htype rfl rfl (Nat.le_refl 4)
      (Nat.le_add_right 4 9)
  have hequivariant (k : Setting Unit) : v.collaborators.Equivariant k :=
    Collaborators.alikeIn_twoWays Correspondence.closed_strict k fun _ _ _ _ => .none
  have hsteady : ∀ c, v.Steady c := by
    refine steady_of_strategies v fun own op s hs attrs inputs type target m o ho e he => ?_
    obtain rfl := Option.some.inj hs
    obtain rfl := Outcome.ok.inj ho
    cases he
  have hcosts (w : Workload) : (oracle infinity v.target w).finiteCost? = none := by
    dsimp only [oracle]
    split
    · decide
    · rfl
  have hdynamic (c : CallNode) (hc : c.expr.Within (f dynamic).body) : c.call.isDynamic = true := by
    have htype : c.call.type = dynamic := (Function.twoScopes_callsOf hc).call _ _ _ _ _ rfl
    rw [Call.isDynamic, htype]
    rfl
  refine ⟨?_, ?_, ?_, ?_⟩
  · have hn : 3 < 4 := by decide
    refine (hboth static infinity (hbelow (.var ⟨3, "n", .int32⟩) hn)).1 (hequivariant _)
      (fun _ c _ => hsteady c) (Or.inl fun c _ => ?_)
    exact unpriced_of_offers (fun _ _ h => Collaborators.ends_of_offers_twoWays h) hcosts c
  · -- the first call, under the first definition
    let relu : CallNode := ⟨2, ⟨"relu", .empty, [.var 0 ⟨0, "x", static⟩], static⟩⟩
    let sum : Expr := sharedSum ⟨0, "x", static⟩ ⟨1, "y", static⟩
    let t : Tensor := .placeholder 4 "x" [.var ⟨3, "n", .int32⟩, .imm 2 .int32] (.float 32)
    let s : Progress := .bind .start ⟨0, "x", static⟩ [t]
    let n : Machine Unit := { m infinity 0 with next := 5 }
    have hsum : Visit.Leads v ⟨s, n, (f static).body⟩ ⟨s, n, sum⟩ :=
      @Visit.Leads.part _ v _ [] _ _ _ _ _ rfl rfl rfl
    have hrelu : Visit.Leads v ⟨s, n, sum⟩ ⟨s, n, relu.expr⟩ :=
      @Visit.Leads.part _ v _ [] _ _ _ _ _ rfl rfl rfl
    have hreach : v.Visits (f static) (m infinity 0) ⟨s, n, relu.expr⟩ :=
      ⟨_, s, n, rfl, .tail (.single hsum) hrelu⟩
    exact ⟨⟨relu, [t], n⟩, ⟨⟨s, n, relu.expr⟩, hreach, rfl, rfl, _, rfl⟩, rfl, rfl⟩
  · exact (hboth dynamic four (hbelow .unknown trivial)).1 (hequivariant _) (fun _ c _ => hsteady c)
      (Or.inr hdynamic)
  · exact congrFun ((hboth dynamic four (hbelow .unknown trivial)).2 hdynamic) (m four 0)

/-- The oracle knows no cost at all and all calls are dynamic, but it depends on the lots which
guards are proved. So other lots are drawn without costs, and another implementation is chosen. -/
theorem Walk.exists_chosen_by_lot :
    let type : Ty := .tensor ⟨[.unknown, .var ⟨3, "m", .int64⟩], .float 32⟩
    let f := Function.double ⟨0, "x", type⟩ 1 1
    let v : Walk Unit := ⟨.twoWays halvesAgree, ⟨.llvm, .empty⟩, true, .values⟩
    let m (lot : Nat) : Machine Unit := .initial () 4 fun _ => lot
    f.Below 4 ∧ (∀ k, v.collaborators.Equivariant k) ∧
      (∀ r i, v.collaborators.Offers r i → ∀ m, ∃ outputs n,
        i.compute r.attrs r.inputs r.type m = (.ok outputs, n)) ∧
      (∀ w, ((m 0).tuning.oracle v.target w).finiteCost? = none) ∧
      (∀ c : CallNode, c.expr.Within f.body → c.call.isDynamic = true) ∧
      ¬LoweredAlike 4 (v.lower f (m 0)).1 (v.byPriority.lower f (m 9)).1 := by
  intro type f v m
  refine ⟨?_, fun k => ?_, fun _ _ h => Collaborators.ends_of_offers_twoWays h, fun _ => rfl,
    fun c hc => ?_, fun h => ?_⟩
  · refine Function.double_below fun leaf hleaf => ?_
    obtain rfl := List.mem_singleton.mp hleaf
    have hm : 3 < 4 := by decide
    exact List.forall_mem_cons.mpr ⟨trivial, List.forall_mem_singleton.mpr hm⟩
  · exact Collaborators.alikeIn_twoWays Correspondence.closed_strict k optionRel_halvesAgree
  · obtain h | h | h := Function.double_within hc
    · obtain ⟨-, -, -, -, htype⟩ := Expr.call.inj h
      rw [Call.isDynamic, htype]
      rfl
    · cases h
    · cases h
  · have hchosen := h.implementations?_eq
    rw [implementations?_halving true 0, byPriority, implementations?_halving false 9] at hchosen
    exact absurd hchosen (by decide)

end TensorLowering
