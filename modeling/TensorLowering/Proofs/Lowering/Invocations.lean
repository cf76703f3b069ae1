import TensorLowering.Proofs.Lowering.Begun
import TensorLowering.Proofs.Lowering.Selection

/-!
# What is invoked for a call

For a call that is begun, collaborators are invoked: for values the strategy of the operator and the
implementations that are computed, for shapes the shape function. `Walk.invocations` lists them in
order, each with the machine that it runs on.

Implementations are computed one after the other, until one of them does not end with a value
(`computing`). Which ones are due depends on whether costs are asked for (`due`); that costs decide
is then of no consequence for the machine (`select_machine`). So a statement about machines and what
was invoked before is true when a call was lowered, if it stays true with each implementation that
is computed (`computing_log`).
-/

namespace TensorLowering

open TensorLowering.Action

variable {σ : Type}

/-- Something of the collaborators that is run, with what it is given and the machine it runs on. -/
inductive Invocation (σ : Type) where
  | strategy (s : Strategy σ) (site : CallSite) (target : Target) (m : Machine σ)
  | implementation (i : Implementation σ) (site : CallSite) (m : Machine σ)
  | shapeFunction (f : ShapeFunction σ) (call : Call) (inputs : List Tensor) (m : Machine σ)

/-- The value of an action, if it ends with one. -/
def Outcome.value? {α : Type} : Outcome α → Option α
  | .ok a => some a
  | .fault _ | .panic | .stalled => none

namespace Invocation

/-- The machine at the beginning. -/
def machine : Invocation σ → Machine σ
  | .strategy _ _ _ m | .implementation _ _ m | .shapeFunction _ _ _ m => m

/-- What an implementation has computed, if it has ended with a value. -/
def outputs? : Invocation σ → Option (List Tensor)
  | .implementation i r m => (i.compute r.attrs r.inputs r.type m).1.value?
  | .strategy .. | .shapeFunction .. => none

variable {i : Implementation σ} {r : CallSite} {m n : Machine σ} {outputs : List Tensor}

/-- An implementation that ends well has outputs. -/
theorem outputs?_of_ok (h : i.compute r.attrs r.inputs r.type m = (.ok outputs, n)) :
    (implementation i r m).outputs? = some outputs := by
  rw [outputs?, h]
  rfl

/-- One that fails has none. -/
theorem outputs?_of_fails (h : ∀ outputs, (i.compute r.attrs r.inputs r.type m).1 ≠ .ok outputs) :
    (implementation i r m).outputs? = none := by
  rw [outputs?]
  cases ho : (i.compute r.attrs r.inputs r.type m).1 with
  | ok outputs => exact absurd ho (h outputs)
  | fault | panic | stalled => rfl

private theorem exists_of_outputs? (h : (implementation i r m).outputs? = some outputs) :
    ∃ n, i.compute r.attrs r.inputs r.type m = (.ok outputs, n) := by
  rw [outputs?] at h
  rcases hrun : i.compute r.attrs r.inputs r.type m with ⟨o, n⟩
  rw [hrun] at h
  cases o with
  | ok outputs' =>
    obtain rfl := Option.some.inj h
    exact ⟨n, rfl⟩
  | fault | panic | stalled => cases h

end Invocation

/-! ### Computing implementations -/

/-- The implementations that are computed: all, if costs are asked for, and otherwise the first one
of the greatest priority. -/
def due (is : List (Implementation σ)) (useCosts : Bool) : List (Implementation σ) :=
  if useCosts then is else (firstByPriority? is).toList

/-- Only candidates are due. -/
theorem mem_of_mem_due {is : List (Implementation σ)} {useCosts : Bool} {i : Implementation σ}
    (h : i ∈ due is useCosts) : i ∈ is := by
  unfold due at h
  split at h
  · exact h
  · exact firstByPriority?_mem (Option.mem_toList.mp h)

/-- Implementations are computed one after the other, until one does not end with a value. After
each one the workload behind its outputs is noted. -/
def computing (r : CallSite) (target : Target) :
    List (Implementation σ) → Machine σ → List (Invocation σ)
  | [], _ => []
  | i :: is, m =>
    .implementation i r m ::
      match i.compute r.attrs r.inputs r.type m with
      | (.ok outputs, n) => computing r target is (n.noting target outputs)
      | (.fault _, _) | (.panic, _) | (.stalled, _) => []

section

variable {r : CallSite} {target : Target} {i : Implementation σ} {is : List (Implementation σ)}
  {oracle : Oracle} {m n : Machine σ} {outputs : List Tensor}

/-- After an implementation that ends well the next one is computed, on the machine that was left.
-/
theorem computing_of_ok (h : i.compute r.attrs r.inputs r.type m = (.ok outputs, n)) :
    computing r target (i :: is) m =
      .implementation i r m :: computing r target is (n.noting target outputs) := by
  rw [computing, h]

/-- After one that fails no other one is. -/
theorem computing_of_fails (h : ∀ outputs, (i.compute r.attrs r.inputs r.type m).1 ≠ .ok outputs) :
    computing r target (i :: is) m = [.implementation i r m] := by
  rw [computing]
  rcases hrun : i.compute r.attrs r.inputs r.type m with ⟨o, n⟩
  cases o with
  | ok outputs => exact absurd (congrArg Prod.fst hrun) (h outputs)
  | fault | panic | stalled => rfl

/-- When an implementation was computed, the workload behind its outputs was noted. -/
theorem computeTraced_of_ok (h : i.compute r.attrs r.inputs r.type m = (.ok outputs, n)) :
    computeTraced i r target m =
      (.ok (outputs, nearestWorkload? outputs), n.noting target outputs) :=
  computeTraced_eq_ok_iff.mpr ⟨n, h, rfl, rfl⟩

private theorem computeTraced_fails
    (h : ∀ outputs, (i.compute r.attrs r.inputs r.type m).1 ≠ .ok outputs) :
    ∀ b, (computeTraced i r target m).1 ≠ .ok b := by
  intro b hb
  obtain ⟨outputs, n, hcompute, -⟩ := bind_eq_ok_iff.mp (Prod.ext hb rfl)
  exact h outputs (congrArg Prod.fst hcompute)

/-- Computing several, the machine is that after the first one, or after the others. -/
private theorem computeAll_cons_machine (oracle : Oracle) (r : CallSite) (target : Target)
    (i : Implementation σ) (is : List (Implementation σ)) (m : Machine σ) :
    ((∃ outputs n, i.compute r.attrs r.inputs r.type m = (.ok outputs, n) ∧
        (computeAll oracle r target (i :: is) m).2 =
          (computeAll oracle r target is (n.noting target outputs)).2) ∨
      (∀ outputs, (i.compute r.attrs r.inputs r.type m).1 ≠ .ok outputs) ∧
        (computeAll oracle r target (i :: is) m).2 = (computeTraced i r target m).2) := by
  rw [computeAll]
  rcases hrun : i.compute r.attrs r.inputs r.type m with ⟨o, n⟩
  cases o with
  | ok outputs =>
    refine Or.inl ⟨outputs, n, rfl, ?_⟩
    rw [bind_of_ok (computeTraced_of_ok hrun)]
    exact bind_machine (fun _ _ => rfl) _ _
  | fault | panic | stalled =>
    have hfails : ∀ outputs, (i.compute r.attrs r.inputs r.type m).1 ≠ .ok outputs := by
      intro outputs h
      rw [hrun] at h
      cases h
    refine Or.inr ⟨fun outputs h => ?_, bind_machine_of_fails (computeTraced_fails hfails) _⟩
    cases h

/-- **What stays true with each implementation that is computed is true when all were.** -/
theorem computing_log {P : List (Invocation σ) → Machine σ → Prop}
    (hstep : ∀ done n, ∀ i ∈ is, P done n →
      P (done ++ [.implementation i r n]) (computeTraced i r target n).2)
    {done : List (Invocation σ)} (hm : P done m) :
    P (done ++ computing r target is m) (computeAll oracle r target is m).2 := by
  induction is generalizing done m with
  | nil =>
    rw [computing, List.append_nil]
    exact hm
  | cons i is ih =>
    have hfirst := hstep done m i List.mem_cons_self hm
    obtain ⟨outputs, n, hcompute, hmachine⟩ | ⟨hfails, hmachine⟩ :=
      computeAll_cons_machine oracle r target i is m
    · rw [hmachine, computing_of_ok hcompute, List.append_cons]
      rw [computeTraced_of_ok hcompute] at hfirst
      exact ih (fun done n j hj => hstep done n j (List.mem_cons_of_mem i hj)) hfirst
    · rw [hmachine, computing_of_fails hfails]
      exact hfirst

/-- If all that is computed ends with values, all implementations are computed. -/
theorem exists_computes {P : List Tensor → Prop}
    (h : ∀ i n, .implementation i r n ∈ computing r target is m →
      ∃ outputs, (Invocation.implementation i r n).outputs? = some outputs ∧ P outputs) :
    ∃ all n, Computes r target is m all n ∧ ∀ outputs ∈ all, P outputs := by
  induction is generalizing m with
  | nil => exact ⟨[], m, .nil m, nofun⟩
  | cons i is ih =>
    obtain ⟨outputs, houtputs, hP⟩ := h i m List.mem_cons_self
    obtain ⟨n, hrun⟩ := Invocation.exists_of_outputs? houtputs
    rw [computing_of_ok hrun] at h
    obtain ⟨all, n', hcomputes, hall⟩ := ih fun j n hj => h j n (List.mem_cons_of_mem _ hj)
    exact ⟨outputs :: all, n', .cons hrun hcomputes, List.forall_mem_cons.mpr ⟨hP, hall⟩⟩

/-- Whether costs decide is of no consequence for the machine: it is left as computing the
implementations that are due leaves it. -/
theorem select_machine (is : List (Implementation σ)) (r : CallSite) (target : Target)
    (useCosts : Bool) (m : Machine σ) : (select is r target useCosts m).2 =
      (computeAll m.tuning.oracle r target (due is useCosts) m).2 := by
  cases hbest : firstByPriority? is with
  | none =>
    obtain rfl := firstByPriority?_eq_none_iff.mp hbest
    cases useCosts with
    | false | true => rfl
  | some best =>
    simp only [select, due, hbest]
    cases useCosts with
    | false =>
      have halone : (computeAll m.tuning.oracle r target [best] m).2 =
          (computeTraced best r target m).2 := bind_machine (fun _ _ => rfl) _ m
      exact (bind_machine (fun _ _ => rfl) _ m).trans halone.symm
    | true =>
      refine bind_machine (fun all n => ?_) (computeAll m.tuning.oracle r target is) m
      cases Computed.choose? all with
      | none => rfl
      | some chosen => rfl

end

/-! ### Lowering a call -/

namespace Begun

/-- The machine that the candidates are looked for on: the type of the result was normalized, and
tracing is suspended if the current session does not want the operator. -/
def entered (c : Begun σ) (next : Nat) : Machine σ :=
  let m := { c.machine with next }
  if c.machine.excludes c.node.call.op then { m with thread := m.thread.suspend } else m

/-- The call site, when the type of the result was normalized. -/
def site (c : Begun σ) (type : Ty) : CallSite :=
  ⟨c.node.call.op, c.node.call.attrs, c.inputs, type⟩

end Begun

namespace Walk

/-- Whether costs are asked for when the call is lowered. -/
def asksCosts (w : Walk σ) (call : Call) : Bool := w.useCosts && !call.isDynamic

/-- What is invoked for the value of a call, when the type of its result was normalized. -/
def selecting (w : Walk σ) (call : Call) (site : CallSite) (m : Machine σ) : List (Invocation σ) :=
  match w.collaborators.strategy? m.own site.op with
  | none => []
  | some s =>
    .strategy s site w.target { m with thread := m.thread.enter w.target } ::
      match candidates w.collaborators site w.target m with
      | (.ok is, n) => computing site w.target (due is (w.asksCosts call)) n
      | (.fault _, _) | (.panic, _) | (.stalled, _) => []

/-- **What is invoked for a call**, in order, each with the machine that it runs on. -/
def invocations (w : Walk σ) (c : Begun σ) : List (Invocation σ) :=
  match w.aspect with
  | .values =>
    match c.node.call.type.normalize c.machine.lots c.machine.next with
    | .ok (type, next) => w.selecting c.node.call (c.site type) (c.entered next)
    | .error _ => []
  | .shapes =>
    match w.collaborators.shapeFunction? c.machine.own c.node.call.op with
    | some f => [.shapeFunction f c.node.call c.inputs c.machine]
    | none => []

section

variable {w : Walk σ} {c : Begun σ} {type : Ty} {next : Nat}

/-- Finding the candidates and choosing one of them. -/
def choose (w : Walk σ) (call : Call) (site : CallSite) : Action σ LoweredCall :=
  w.collaborators.choose w.target (w.asksCosts call) site

private theorem after_values (hw : w.aspect = .values) : c.after w =
    (lowerCall w.collaborators w.target w.useCosts c.node.call c.inputs c.machine).2 := by
  unfold Begun.after finishCall
  rw [hw]
  exact bind_machine (fun _ _ => rfl) _ _

/-- Nothing is invoked for a call with a dimension that does not fit. -/
theorem invocations_of_error (hw : w.aspect = .values) {e : Fault}
    (h : c.node.call.type.normalize c.machine.lots c.machine.next = .error e) :
    w.invocations c = [] := by
  simp only [invocations, hw, h]

/-- If all dimensions fit, then what is invoked is what is invoked to choose. -/
theorem invocations_of_ok (hw : w.aspect = .values)
    (h : c.node.call.type.normalize c.machine.lots c.machine.next = .ok (type, next)) :
    w.invocations c = w.selecting c.node.call (c.site type) (c.entered next) := by
  simp only [invocations, hw, h]

/-- For values what is invoked is invoked when the type of the result was normalized, and for shapes
it is the shape function. -/
theorem mem_invocations {v : Invocation σ} (h : v ∈ w.invocations c) :
    (w.aspect = .values ∧ ∃ type next,
        c.node.call.type.normalize c.machine.lots c.machine.next = .ok (type, next) ∧
        v ∈ w.selecting c.node.call (c.site type) (c.entered next)) ∨
      w.aspect = .shapes ∧ ∃ f,
        w.collaborators.shapeFunction? c.machine.own c.node.call.op = some f ∧
        v = .shapeFunction f c.node.call c.inputs c.machine := by
  cases haspect : w.aspect with
  | values =>
    cases hnormal : c.node.call.type.normalize c.machine.lots c.machine.next with
    | error e =>
      rw [invocations_of_error haspect hnormal] at h
      cases h
    | ok r =>
      rw [invocations_of_ok haspect hnormal] at h
      exact Or.inl ⟨rfl, r.1, r.2, rfl, h⟩
  | shapes =>
    simp only [invocations, haspect] at h
    split at h
    · exact Or.inr ⟨rfl, _, by assumption, List.mem_singleton.mp h⟩
    · cases h

/-- A call whose type has no normal form is not lowered. -/
theorem after_of_error (hw : w.aspect = .values) {e : Fault}
    (h : c.node.call.type.normalize c.machine.lots c.machine.next = .error e) :
    c.after w = c.machine := by
  have htype : takeNumbers (fun lots next => c.node.call.type.normalize lots next) c.machine =
      (.fault e, c.machine) := by
    simp only [takeNumbers, h]
  rw [after_values hw]
  exact (bind_machine_of_fails (by rw [htype]; exact nofun) _).trans (congrArg Prod.snd htype)

/-- A call is lowered by choosing a candidate, with tracing suspended if need be. -/
theorem after_of_ok (hw : w.aspect = .values)
    (h : c.node.call.type.normalize c.machine.lots c.machine.next = .ok (type, next)) :
    c.after w = (suspendIf (c.machine.excludes c.node.call.op)
      (w.choose c.node.call (c.site type)) { c.machine with next }).2 := by
  have htype : takeNumbers (fun lots next => c.node.call.type.normalize lots next) c.machine =
      (.ok type, { c.machine with next }) := takeNumbers_eq_ok_iff.mpr ⟨next, h, rfl⟩
  rw [after_values hw]
  exact congrArg Prod.snd (bind_of_ok htype _)

end

section

variable {w : Walk σ} {call : Call} {site : CallSite} {m : Machine σ}

/-- What is computed for a call is invoked for it. -/
theorem computing_subset_selecting {is : List (Implementation σ)} {n : Machine σ}
    (h : candidates w.collaborators site w.target m = (.ok is, n)) :
    computing site w.target (due is (w.asksCosts call)) n ⊆ w.selecting call site m := by
  obtain ⟨s, m', hstrategy, -⟩ := bind_eq_ok_iff.mp h
  simp only [selecting, Collaborators.strategy_eq_ok hstrategy, h]
  exact List.subset_cons_self _ _

/-- **What stays true when the strategy was run and with each implementation that is computed** is
true when a candidate was chosen. -/
theorem selecting_log (P : List (Invocation σ) → Machine σ → Prop) (done : List (Invocation σ))
    (hstrategy : ∀ s, w.collaborators.strategy? m.own site.op = some s →
      P (done ++ [.strategy s site w.target { m with thread := m.thread.enter w.target }])
        (candidates w.collaborators site w.target m).2)
    (hstep : ∀ is n, candidates w.collaborators site w.target m = (.ok is, n) →
      ∀ done n, ∀ i ∈ is, P done n →
        P (done ++ [.implementation i site n]) (computeTraced i site w.target n).2)
    (hm : P done m) : P (done ++ w.selecting call site m) (w.choose call site m).2 := by
  cases hfound : w.collaborators.strategy? m.own site.op with
  | none =>
    have hlookup : w.collaborators.strategy site.op m = (.fault (.noStrategy site.op), m) := by
      unfold Collaborators.strategy
      rw [hfound]
      rfl
    have hcandidates : ∀ is, (candidates w.collaborators site w.target m).1 ≠ .ok is := by
      intro is his
      obtain ⟨s, n, hs, -⟩ := bind_eq_ok_iff.mp (Prod.ext his rfl)
      rw [hlookup] at hs
      cases hs
    have hstrategies : ∀ s, (w.collaborators.strategy site.op m).1 ≠ .ok s := by
      rw [hlookup]
      exact nofun
    have hmachine : (w.choose call site m).2 = m := by
      refine (bind_machine_of_fails hcandidates _).trans ?_
      exact (bind_machine_of_fails hstrategies _).trans (congrArg Prod.snd hlookup)
    simp only [selecting, hfound, hmachine, List.append_nil]
    exact hm
  | some s =>
    have hs := hstrategy s hfound
    rcases hcandidates : candidates w.collaborators site w.target m with ⟨o, n⟩
    simp only [selecting, hfound, hcandidates] at hs ⊢
    rw [List.append_cons]
    cases o with
    | ok is =>
      have hrun : (w.choose call site m).2 = _ := congrArg Prod.snd (bind_of_ok hcandidates _)
      rw [hrun, bind_machine (fun _ _ => rfl), select_machine]
      exact computing_log (fun done n' i hi => hstep is n hcandidates done n' i (mem_of_mem_due hi))
        hs
    | fault | panic | stalled =>
      have hmachine : (w.choose call site m).2 = n :=
        (bind_machine_of_fails (by rw [hcandidates]; exact nofun) _).trans
          (congrArg Prod.snd hcandidates)
      rw [hmachine, List.append_nil]
      exact hs

/-- Implementations that are computed for a call are offered for it. -/
private theorem offers_of_mem_selecting {i : Implementation σ} {r : CallSite} {n : Machine σ}
    (h : .implementation i r n ∈ w.selecting call site m) :
    r = site ∧ w.collaborators.Offers site i := by
  have hall : ∀ i r n, .implementation i r n ∈ w.selecting call site m →
      r = site ∧ w.collaborators.Offers site i := by
    refine selecting_log (m := m) (fun done _ => ∀ i r n, .implementation i r n ∈ done →
      r = site ∧ w.collaborators.Offers site i) [] ?_ ?_ nofun
    · intro s _ i r n hi
      cases List.mem_singleton.mp hi
    · intro is n hfound done _ i hi hdone i' r' n' hi'
      obtain hi' | hi' := List.mem_append.mp hi'
      · exact hdone i' r' n' hi'
      · obtain ⟨rfl, rfl, -⟩ := Invocation.implementation.inj (List.mem_singleton.mp hi')
        exact ⟨rfl, Collaborators.offers_of_candidates hfound i' hi⟩
  exact hall i r n h

/-- The same for what is lowered of a call. -/
theorem offers_of_mem_invocations {c : Begun σ} {i : Implementation σ} {r : CallSite}
    {n : Machine σ} (h : .implementation i r n ∈ w.invocations c) : w.collaborators.Offers r i := by
  obtain ⟨-, type, next, -, hselecting⟩ | ⟨-, f, -, hshapes⟩ := mem_invocations h
  · obtain ⟨rfl, hi⟩ := offers_of_mem_selecting hselecting
    exact hi
  · cases hshapes

end

end Walk

/-- A choice has every property of a regime that the collaborators have. -/
theorem Action.Regime.choose {K : Action.Property σ} (hK : Action.Regime K) {w : Walk σ}
    (hw : w.collaborators.Keeps K) (call : Call) (site : CallSite) :
    K (fun _ => True) (w.choose call site) := by
  refine hK.bind (hK.candidates hw site w.target) fun is his => ?_
  exact hK.bind (hK.select his site w.target _) fun _ _ => hK.pure trivial

end TensorLowering
