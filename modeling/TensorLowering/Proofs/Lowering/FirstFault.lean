import TensorLowering.Proofs.Cache.Refinement
import TensorLowering.Proofs.Lowering.Dimensions
import TensorLowering.Proofs.Lowering.Invocations
import TensorLowering.Proofs.Lowering.StepByStep
import TensorLowering.Proofs.Tuning.Tasks

/-!
# The first fault

Much can be wrong with one function: dimensions that do not fit, operators that nothing is
registered for, collaborators that give up. A lowering stops at the first step that fails, in the
order of evaluation. Each step says why it can fail (`Walk.StepFails`), a call by going through its
stages: the type of its result is normalized, then the strategy is looked up and run, then the
implementations that are due are computed (`Walk.CallFails`). All steps before have ended well, and
with them everything that had to be invoked for their calls (`Walk.CallEnds`); nothing is invoked
for a step behind it (`Walk.fails_of_lower`).

A request that fails tells this cause, wrapped once with the text of the function that was asked
for, and takes no name (`Engine.lower_fails`).
-/

namespace TensorLowering

open TensorLowering.Action IndexExpr

variable {σ α β : Type}

/-! ### Invocations -/

/-- The fault that an action has ended with, if it has. -/
def Outcome.fault? : Outcome α → Option Fault
  | .fault e => some e
  | .ok _ | .panic | .stalled => none

private theorem Outcome.eq_fault_of_map {f : α → β} {o : Outcome α} {e : Fault}
    (h : o.map f = .fault e) : o = .fault e := by
  cases o with
  | fault e' =>
    cases h
    rfl
  | ok | panic | stalled => cases h

private theorem Outcome.exists_of_map_eq_ok {f : α → β} {o : Outcome α} {b : β}
    (h : o.map f = .ok b) : ∃ a, o = .ok a ∧ f a = b := by
  cases o with
  | ok a => exact ⟨a, rfl, Outcome.ok.inj h⟩
  | fault | panic | stalled => cases h

/-- The fault that something has ended with, if it has. -/
def Invocation.fault? : Invocation σ → Option Fault
  | .strategy s r target m => (s r.attrs r.inputs r.type target m).1.fault?
  | .implementation i r m => (i.compute r.attrs r.inputs r.type m).1.fault?
  | .shapeFunction f call inputs m =>
    (f call.attrs inputs (call.type.leaves.map TensorType.rank) m).1.fault?

/-- Implementations are computed one after the other, and all of them end with values. -/
def InTurn (r : CallSite) (is : List (Implementation σ)) (done : List (Invocation σ)) : Prop :=
  List.Forall₂ (fun i v => ∃ m, v = .implementation i r m ∧ v.outputs?.isSome) is done

section

variable {r : CallSite} {target : Target} {is js : List (Implementation σ)} {m n : Machine σ}
  {all : List (List Tensor)} {e : Fault}

private theorem Computes.inTurn (h : Computes r target is m all n) :
    InTurn r is (computing r target is m) := by
  induction h with
  | nil => exact .nil
  | @cons i is m _ _ _ _ hcompute _ ih =>
    rw [computing_of_ok hcompute]
    exact .cons ⟨m, rfl, Option.isSome_of_eq_some (Invocation.outputs?_of_ok hcompute)⟩ ih

private theorem Computes.computing_append (h : Computes r target is m all n)
    (js : List (Implementation σ)) :
    computing r target (is ++ js) m = computing r target is m ++ computing r target js n := by
  induction h with
  | nil => rfl
  | cons hcompute _ ih =>
    rw [List.cons_append, computing_of_ok hcompute, computing_of_ok hcompute, ih, List.cons_append]

/-- Nothing is computed behind the implementation that fails. -/
theorem Interrupted.computing (h : Interrupted r target is m e n) :
    ∃ before i after done m₁, is = before ++ i :: after ∧ InTurn r before done ∧
      computing r target is m = done ++ [.implementation i r m₁] ∧
      (Invocation.implementation i r m₁).fault? = some e := by
  obtain ⟨before, i, after, all, m₁, rfl, hcomputes, hfault⟩ := h
  refine ⟨before, i, after, _, m₁, rfl, hcomputes.inTurn, ?_, ?_⟩
  · rw [hcomputes.computing_append, computing_of_fails]
    rw [hfault]
    exact nofun
  · rw [Invocation.fault?, hfault]
    rfl

private theorem Due.eq_due {useCosts : Bool} (h : Due is useCosts js) : js = due is useCosts := by
  cases h with
  | all _ => rfl
  | best hbest =>
    rw [due, if_neg Bool.false_ne_true, firstByPriority?_eq_some_iff.mpr ⟨_, hbest⟩]
    rfl

private theorem due_nil (useCosts : Bool) : due ([] : List (Implementation σ)) useCosts = [] := by
  cases useCosts with
  | false | true => rfl

/-- A choice that fails has no candidates, or one that is due has failed. -/
private theorem select_fails {useCosts : Bool} (h : select is r target useCosts m = (.fault e, n)) :
    is = [] ∧ e = .noImplementation r.op ∨ Interrupted r target (due is useCosts) m e n := by
  obtain ⟨his, he, -⟩ | ⟨js, hdue, h⟩ := select_fault_iff.mp h
  · exact Or.inl ⟨his, he⟩
  · exact Or.inr (hdue.eq_due ▸ h)

/-- A choice that ends well has computed all that are due. -/
private theorem select_ends {useCosts : Bool} {chosen : Implementation σ × List Tensor}
    (h : select is r target useCosts m = (.ok chosen, n)) :
    ∃ all, Computes r target (due is useCosts) m all n := by
  obtain ⟨i, outputs⟩ := chosen
  cases useCosts with
  | false =>
    obtain ⟨⟨k, hbest⟩, hcomputes⟩ := select_false_iff.mp h
    exact ⟨[outputs], (Due.best hbest).eq_due ▸ hcomputes⟩
  | true =>
    obtain ⟨all, -, hcomputes, -⟩ := select_true_iff.mp h
    exact ⟨all, hcomputes⟩

end

section

variable {c : Collaborators σ} {r : CallSite} {target : Target} {m : Machine σ} {s : Strategy σ}

private theorem candidates_of_none (h : c.strategy? m.own r.op = none) :
    candidates c r target m = (.fault (.noStrategy r.op), m) := by
  have hlookup : c.strategy r.op m = (.fault (.noStrategy r.op), m) := by
    rw [Collaborators.strategy, h]
    rfl
  exact bind_eq_fault_iff.mpr (Or.inl hlookup)

/-- The candidates are those of the offer that apply. -/
theorem candidates_of_some (h : c.strategy? m.own r.op = some s) (target : Target) :
    candidates c r target m = (withTarget target (s r.attrs r.inputs r.type target) >>=
      fun o => pure o.applicable : Action σ _) m := by
  have hlookup : c.strategy r.op m = (.ok s, m) := by
    rw [Collaborators.strategy, h]
    rfl
  exact bind_of_ok hlookup _

private theorem candidates_outcome (h : c.strategy? m.own r.op = some s) (target : Target) :
    (candidates c r target m).1 = Outcome.map Offer.applicable
      (s r.attrs r.inputs r.type target { m with thread := m.thread.enter target }).1 := by
  rw [candidates_of_some h]
  change (Action.bind (withTarget target _) _ m).1 = _
  unfold Action.bind withTarget
  rcases s r.attrs r.inputs r.type target { m with thread := m.thread.enter target } with ⟨o, n⟩
  cases o <;> rfl

end

section

variable {c : Collaborators σ} {call : Call} {inputs : List Tensor} {m : Machine σ}

private theorem callShapeFunction_of_none (h : c.shapeFunction? m.own call.op = none) :
    callShapeFunction c call inputs m = (.fault (.noShapeFunction call.op), m) := by
  have hlookup : c.shapeFunction call.op m = (.fault (.noShapeFunction call.op), m) := by
    rw [Collaborators.shapeFunction, h]
    rfl
  exact bind_eq_fault_iff.mpr (Or.inl hlookup)

/-- The tensors that a shape function returns are counted. -/
private theorem callShapeFunction_of_some {f : ShapeFunction σ}
    (h : c.shapeFunction? m.own call.op = some f) : callShapeFunction c call inputs m =
      (f call.attrs inputs (call.type.leaves.map TensorType.rank) >>= fun outputs =>
        if outputs.length = call.type.leaves.length then pure outputs
        else fail (.shapeCount call.op outputs.length call.type.leaves.length)) m := by
  have hlookup : c.shapeFunction call.op m = (.ok f, m) := by
    rw [Collaborators.shapeFunction, h]
    rfl
  have hcount : (call.type.leaves.map TensorType.rank).length = call.type.leaves.length :=
    List.length_map _
  rw [← hcount]
  exact bind_of_ok hlookup _

end

/-! ### How a call fails and how it ends -/

namespace Walk

/-- For the value of a call this strategy is run on this machine: the type of the result was
normalized, the strategy was found, and the target is entered. -/
inductive Consults (w : Walk σ) (c : Begun σ) : CallSite → Strategy σ → Machine σ → Prop where
  | mk {type : Ty} {next : Nat} {s : Strategy σ} :
      w.aspect = .values →
      c.node.call.type.normalize c.machine.lots c.machine.next = .ok (type, next) →
      w.collaborators.strategy? c.machine.own c.node.call.op = some s →
      Consults w c (c.site type) s
        { c.entered next with thread := (c.entered next).thread.enter w.target }

/-- **A call fails for a cause**, at one of its stages, and this is what was invoked for it. -/
inductive CallFails (w : Walk σ) (c : Begun σ) : Fault → List (Invocation σ) → Prop where
  /-- A dimension of its type does not fit. -/
  | dimension {v : Int} : w.aspect = .values → c.node.call.type.dims.findSome? overflow? = some v →
      CallFails w c (.dimensionOverflow v) []
  /-- The dimensions fit, but the operator has no strategy. -/
  | noStrategy : w.aspect = .values → c.node.call.type.dims.findSome? overflow? = none →
      w.collaborators.strategy? c.machine.own c.node.call.op = none →
      CallFails w c (.noStrategy c.node.call.op) []
  /-- The strategy fails. -/
  | strategy {site : CallSite} {s : Strategy σ} {m : Machine σ} {e : Fault} :
      w.Consults c site s m → (Invocation.strategy s site w.target m).fault? = some e →
      CallFails w c e [.strategy s site w.target m]
  /-- Nothing of the offer applies. -/
  | noImplementation {site : CallSite} {s : Strategy σ} {m : Machine σ} {offer : Offer σ} :
      w.Consults c site s m →
      (s site.attrs site.inputs site.type w.target m).1 = .ok offer → offer.applicable = [] →
      CallFails w c (.noImplementation c.node.call.op) [.strategy s site w.target m]
  /-- An implementation fails that is due; those before it have ended with values. -/
  | implementation {site : CallSite} {s : Strategy σ} {m : Machine σ} {offer : Offer σ}
      {before after : List (Implementation σ)} {i : Implementation σ}
      {done : List (Invocation σ)} {n : Machine σ} {e : Fault} :
      w.Consults c site s m →
      (s site.attrs site.inputs site.type w.target m).1 = .ok offer →
      due offer.applicable (w.asksCosts c.node.call) = before ++ i :: after →
      InTurn site before done → (Invocation.implementation i site n).fault? = some e →
      CallFails w c e (.strategy s site w.target m :: (done ++ [.implementation i site n]))
  /-- The operator has no shape function. -/
  | noShapeFunction : w.aspect = .shapes →
      w.collaborators.shapeFunction? c.machine.own c.node.call.op = none →
      CallFails w c (.noShapeFunction c.node.call.op) []
  /-- The shape function fails. -/
  | shapeFunction {f : ShapeFunction σ} {e : Fault} : w.aspect = .shapes →
      w.collaborators.shapeFunction? c.machine.own c.node.call.op = some f →
      (Invocation.shapeFunction f c.node.call c.inputs c.machine).fault? = some e →
      CallFails w c e [.shapeFunction f c.node.call c.inputs c.machine]
  /-- The shape function returns the wrong number of tensors. -/
  | shapeCount {f : ShapeFunction σ} {outputs : List Tensor} : w.aspect = .shapes →
      w.collaborators.shapeFunction? c.machine.own c.node.call.op = some f →
      (f c.node.call.attrs c.inputs (c.node.call.type.leaves.map TensorType.rank)
        c.machine).1 = .ok outputs →
      outputs.length ≠ c.node.call.type.leaves.length →
      CallFails w c
        (.shapeCount c.node.call.op outputs.length c.node.call.type.leaves.length)
        [.shapeFunction f c.node.call c.inputs c.machine]

/-- **A call ends well**, and this is what was invoked for it: the strategy and all implementations
that are due, or the shape function. -/
inductive CallEnds (w : Walk σ) (c : Begun σ) : List (Invocation σ) → Prop where
  | values {site : CallSite} {s : Strategy σ} {m : Machine σ} {offer : Offer σ}
      {done : List (Invocation σ)} :
      w.Consults c site s m →
      (s site.attrs site.inputs site.type w.target m).1 = .ok offer → offer.applicable ≠ [] →
      InTurn site (due offer.applicable (w.asksCosts c.node.call)) done →
      CallEnds w c (.strategy s site w.target m :: done)
  | shapes {f : ShapeFunction σ} {outputs : List Tensor} : w.aspect = .shapes →
      w.collaborators.shapeFunction? c.machine.own c.node.call.op = some f →
      (f c.node.call.attrs c.inputs (c.node.call.type.leaves.map TensorType.rank)
        c.machine).1 = .ok outputs →
      outputs.length = c.node.call.type.leaves.length →
      CallEnds w c [.shapeFunction f c.node.call c.inputs c.machine]

section

variable {w : Walk σ} {c : Begun σ} {type : Ty} {next : Nat} {e : Fault} {s : Strategy σ}

private theorem entered_own (c : Begun σ) (next : Nat) : (c.entered next).own = c.machine.own := by
  unfold Begun.entered
  dsimp only
  split <;> rfl

/-- A call whose type has a normal form ends as choosing a candidate does. -/
private theorem lowerCall_outcome
    (h : c.node.call.type.normalize c.machine.lots c.machine.next = .ok (type, next)) :
    (lowerCall w.collaborators w.target w.useCosts c.node.call c.inputs c.machine).1 =
      (w.choose c.node.call (c.site type) (c.entered next)).1 := by
  have htype : takeNumbers (fun lots next => c.node.call.type.normalize lots next) c.machine =
      (.ok type, { c.machine with next }) := takeNumbers_eq_ok_iff.mpr ⟨next, h, rfl⟩
  have hrun : lowerCall w.collaborators w.target w.useCosts c.node.call c.inputs c.machine =
      suspendIf (c.machine.excludes c.node.call.op) (w.choose c.node.call (c.site type))
        { c.machine with next } := bind_of_ok htype _
  rw [hrun, Begun.entered]
  cases c.machine.excludes c.node.call.op with
  | false | true => rfl

private theorem selecting_of_candidates {m n : Machine σ} {site : CallSite} {call : Call}
    {is : List (Implementation σ)} (hs : w.collaborators.strategy? m.own site.op = some s)
    (h : candidates w.collaborators site w.target m = (.ok is, n)) :
    w.selecting call site m =
      .strategy s site w.target { m with thread := m.thread.enter w.target } ::
        computing site w.target (due is (w.asksCosts call)) n := by
  simp only [selecting, hs, h]

private theorem selecting_of_fault {m n : Machine σ} {site : CallSite} {call : Call}
    (hs : w.collaborators.strategy? m.own site.op = some s)
    (h : candidates w.collaborators site w.target m = (.fault e, n)) :
    w.selecting call site m =
      [.strategy s site w.target { m with thread := m.thread.enter w.target }] := by
  simp only [selecting, hs, h]

private theorem lowerCall_of_error
    (h : c.node.call.type.normalize c.machine.lots c.machine.next = .error e) :
    lowerCall w.collaborators w.target w.useCosts c.node.call c.inputs c.machine =
      (.fault e, c.machine) := by
  have htype : takeNumbers (fun lots next => c.node.call.type.normalize lots next) c.machine =
      (.fault e, c.machine) := by simp only [takeNumbers, h]
  exact bind_eq_fault_iff.mpr (Or.inl htype)

private theorem choose_fails {call : Call} {site : CallSite} {m n : Machine σ}
    (h : w.choose call site m = (.fault e, n)) :
    candidates w.collaborators site w.target m = (.fault e, n) ∨
      ∃ is m₁, candidates w.collaborators site w.target m = (.ok is, m₁) ∧
        select is site w.target (w.asksCosts call) m₁ = (.fault e, n) := by
  obtain h | ⟨is, m₁, his, h⟩ := bind_eq_fault_iff.mp h
  · exact Or.inl h
  · obtain h | ⟨_, _, _, hend⟩ := bind_eq_fault_iff.mp h
    · exact Or.inr ⟨is, m₁, his, h⟩
    · cases hend

/-- The stages of a call that fails after the type of its result was normalized. -/
private theorem callFails_of_choose (hw : w.aspect = .values)
    (hnormal : c.node.call.type.normalize c.machine.lots c.machine.next = .ok (type, next))
    (h : (w.choose c.node.call (c.site type) (c.entered next)).1 = .fault e) :
    w.CallFails c e (w.selecting c.node.call (c.site type) (c.entered next)) := by
  have hown : (c.entered next).own = c.machine.own := entered_own c next
  have hrun := choose_fails (Prod.ext h rfl)
  cases hs : w.collaborators.strategy? c.machine.own c.node.call.op with
  | none =>
    have hs' : w.collaborators.strategy? (c.entered next).own (c.site type).op = none := hown ▸ hs
    have hnormalizes := c.node.call.type.normalizes_normalize c.machine.lots c.machine.next
    have hfit := (hnormal ▸ hnormalizes).of_ok.1
    rw [candidates_of_none hs'] at hrun
    simp only [selecting, hs']
    obtain hrun | ⟨is, m₁, hrun, -⟩ := hrun
    · obtain rfl := Outcome.fault.inj (Prod.mk.inj hrun).1
      exact .noStrategy hw hfit hs
    · cases (Prod.mk.inj hrun).1
  | some s =>
    have hs' : w.collaborators.strategy? (c.entered next).own (c.site type).op = some s :=
      hown ▸ hs
    have hconsults : w.Consults c (c.site type) s _ := .mk hw hnormal hs
    have hoffer := candidates_outcome hs' w.target
    obtain hrun | ⟨is, m₁, his, hselect⟩ := hrun
    · rw [selecting_of_fault hs' hrun]
      rw [hrun] at hoffer
      refine .strategy hconsults ?_
      rw [Invocation.fault?, Outcome.eq_fault_of_map hoffer.symm]
      rfl
    · rw [selecting_of_candidates hs' his]
      rw [his] at hoffer
      obtain ⟨offer, hran, rfl⟩ := Outcome.exists_of_map_eq_ok hoffer.symm
      obtain ⟨hnone, rfl⟩ | hinterrupted := select_fails hselect
      · rw [hnone, due_nil]
        exact .noImplementation hconsults hran hnone
      · obtain ⟨before, i, after, done, n, hdue, hdone, hcomputing, hfault⟩ :=
          hinterrupted.computing
        rw [hcomputing]
        exact .implementation hconsults hran hdue hdone hfault

/-- A candidate was chosen, so all that are due were computed. -/
private theorem callEnds_of_choose {l : LoweredCall} (hw : w.aspect = .values)
    (hnormal : c.node.call.type.normalize c.machine.lots c.machine.next = .ok (type, next))
    (h : (w.choose c.node.call (c.site type) (c.entered next)).1 = .ok l) :
    w.CallEnds c (w.selecting c.node.call (c.site type) (c.entered next)) := by
  have hown : (c.entered next).own = c.machine.own := entered_own c next
  obtain ⟨is, m₁, his, hrest⟩ := bind_eq_ok_iff.mp (Prod.ext h rfl)
  obtain ⟨chosen, m₂, hselect, -⟩ := bind_eq_ok_iff.mp hrest
  obtain ⟨s, m₀, hlookup, -⟩ := bind_eq_ok_iff.mp his
  have hs' := Collaborators.strategy_eq_ok hlookup
  have hs : w.collaborators.strategy? c.machine.own c.node.call.op = some s := hown ▸ hs'
  have hoffer := candidates_outcome hs' w.target
  rw [his] at hoffer
  obtain ⟨offer, hran, rfl⟩ := Outcome.exists_of_map_eq_ok hoffer.symm
  obtain ⟨all, hcomputes⟩ := select_ends hselect
  rw [selecting_of_candidates hs' his]
  refine .values (.mk hw hnormal hs) hran (fun hnone => ?_) hcomputes.inTurn
  rw [hnone] at hselect
  cases hselect

/-- **Why a call fails**, and what was invoked for it. -/
theorem callFails_of_fault {p : Progress} {n : Machine σ}
    (h : w.finishCall p c.node.call c.inputs c.machine = (.fault e, n)) :
    w.CallFails c e (w.invocations c) := by
  cases hw : w.aspect with
  | values =>
    simp only [finishCall, hw] at h
    obtain h | ⟨_, _, _, hend⟩ := bind_eq_fault_iff.mp h
    · cases hnormal : c.node.call.type.normalize c.machine.lots c.machine.next with
      | error e' =>
        obtain ⟨v, hv, rfl⟩ := Ty.normalize_eq_error_iff.mp hnormal
        rw [lowerCall_of_error hnormal] at h
        cases h
        rw [invocations_of_error hw hnormal]
        exact .dimension hw hv
      | ok r =>
        rw [invocations_of_ok hw hnormal]
        exact callFails_of_choose hw hnormal
          ((lowerCall_outcome hnormal).symm.trans (congrArg Prod.fst h))
    · cases hend
  | shapes =>
    simp only [finishCall, hw] at h
    simp only [invocations, hw]
    obtain h | ⟨_, _, _, hend⟩ := bind_eq_fault_iff.mp h
    · cases hf : w.collaborators.shapeFunction? c.machine.own c.node.call.op with
      | none =>
        rw [callShapeFunction_of_none hf] at h
        cases h
        exact .noShapeFunction hw hf
      | some f =>
        rw [callShapeFunction_of_some hf] at h
        obtain h | ⟨outputs, m, hrun, h⟩ := bind_eq_fault_iff.mp h
        · refine .shapeFunction hw hf ?_
          rw [Invocation.fault?, h]
          rfl
        · by_cases hlength : outputs.length = c.node.call.type.leaves.length
          · rw [if_pos hlength] at h
            cases h
          · rw [if_neg hlength] at h
            cases h
            exact .shapeCount hw hf (congrArg Prod.fst hrun) hlength
    · cases hend

/-- What was invoked for a call that ended well. -/
theorem callEnds_of_ok {p q : Progress} {ts : List Tensor} {n : Machine σ}
    (h : w.finishCall p c.node.call c.inputs c.machine = (.ok (ts, q), n)) :
    w.CallEnds c (w.invocations c) := by
  cases hw : w.aspect with
  | values =>
    simp only [finishCall, hw] at h
    obtain ⟨l, m, h, -⟩ := bind_eq_ok_iff.mp h
    cases hnormal : c.node.call.type.normalize c.machine.lots c.machine.next with
    | error e' =>
      rw [lowerCall_of_error hnormal] at h
      cases h
    | ok r =>
      rw [invocations_of_ok hw hnormal]
      exact callEnds_of_choose hw hnormal
        ((lowerCall_outcome hnormal).symm.trans (congrArg Prod.fst h))
  | shapes =>
    simp only [finishCall, hw] at h
    simp only [invocations, hw]
    obtain ⟨outputs, m, h, -⟩ := bind_eq_ok_iff.mp h
    cases hf : w.collaborators.shapeFunction? c.machine.own c.node.call.op with
    | none =>
      rw [callShapeFunction_of_none hf] at h
      cases h
    | some f =>
      rw [callShapeFunction_of_some hf] at h
      obtain ⟨returned, m₁, hrun, h⟩ := bind_eq_ok_iff.mp h
      by_cases hlength : returned.length = c.node.call.type.leaves.length
      · exact .shapes hw hf (congrArg Prod.fst hrun) hlength
      · rw [if_neg hlength] at h
        cases h

end

/-! ### How a step fails -/

/-- **A step fails for a cause**, after what was found and on this machine. A tuple and a local
definition never fail, and a variable is bound without looking at anything. -/
inductive StepFails (w : Walk σ) (s : Progress) (n : Machine σ) : EvalStep → Fault → Prop where
  /-- A variable is free. -/
  | freeVariable {id : Nat} {v : Var} : s.bound.lookup v.id = none →
      StepFails w s n (.finish (.var id v)) (.unsupported (.freeVariable v.name))
  /-- A dimension of a constant does not fit. -/
  | constant {id : Nat} {t : TensorType} {data : List UInt8} {v : Int} : w.aspect = .values →
      t.shape.findSome? overflow? = some v →
      StepFails w s n (.finish (.const id t data)) (.dimensionOverflow v)
  /-- A projection finds no field. -/
  | projection {id i : Nat} {e : Expr} {why : Unsupported} :
      projectTensors e.type (s.kept e) i = .error why →
      StepFails w s n (.finish (.proj id e i)) (.unsupported why)
  /-- A call fails. -/
  | call {c : Begun σ} {e : Fault} : c.machine = n →
      c.inputs = c.node.call.args.flatMap s.kept → w.CallFails c e (w.invocations c) →
      StepFails w s n (.finish c.node.expr) e

section

variable {w : Walk σ} {s : Progress} {n n' : Machine σ} {e : Fault} {a : EvalStep}

private theorem stepFails_of_finish {d : Expr} (h : w.finish s d n = (.fault e, n')) :
    w.StepFails s n (.finish d) e := by
  cases d with
  | var id v =>
    simp only [finish] at h
    cases hbound : s.bound.lookup v.id with
    | some ts =>
      rw [hbound] at h
      cases h
    | none =>
      rw [hbound] at h
      cases h
      exact .freeVariable hbound
  | const id t data =>
    obtain h | ⟨_, _, _, hend⟩ := bind_eq_fault_iff.mp h
    · cases hw : w.aspect with
      | values =>
        rw [hw] at h
        have hchecks := checks_constantTensor t n
        rw [h] at hchecks
        cases hdims : t.shape.findSome? overflow? with
        | some v =>
          rw [hdims] at hchecks
          cases hchecks
          exact .constant hw hdims
        | none =>
          rw [hdims] at hchecks
          obtain ⟨_, hchecks⟩ := hchecks
          cases hchecks
      | shapes =>
        rw [hw] at h
        cases h
    · cases hend
  | call id op attrs args type =>
    exact .call (c := ⟨⟨id, op, attrs, args, type⟩, args.flatMap s.kept, n⟩) rfl rfl
      (callFails_of_fault h)
  | tuple | letIn => cases h
  | proj id d i =>
    simp only [finish] at h
    cases hproject : projectTensors d.type (s.kept d) i with
    | ok ts =>
      rw [hproject] at h
      cases h
    | error why =>
      rw [hproject] at h
      cases h
      exact .projection hproject

/-- **Why a step fails.** -/
theorem stepFails_of_fault (h : w.perform s a n = (.fault e, n')) : w.StepFails s n a e := by
  cases a with
  | bind => cases h
  | finish d =>
    obtain h | ⟨_, _, _, hend⟩ := bind_eq_fault_iff.mp h
    · exact stepFails_of_finish h
    · cases hend

end

/-! ### The first step that fails -/

/-- **A walk fails at a step.** All steps before it have ended well. Their calls were begun and have
ended well, the call that fails was begun if the step is a call, and no other one was begun. -/
structure FailsAt (w : Walk σ) (f : Function) (m : Machine σ) (before : List EvalStep)
    (a : EvalStep) (after : List EvalStep) (e : Fault) (n : Machine σ) : Prop where
  steps : f.evalSteps = before ++ a :: after
  fails : ∃ inputs s n₀ s₁ n₁, w.bindParams .start f.params m = (.ok (inputs, s), n₀) ∧
    w.performAll s before n₀ = (.ok s₁, n₁) ∧ w.StepFails s₁ n₁ a e ∧
    w.perform s₁ a n₁ = (.fault e, n)
  earlier : ∀ d : CallNode, .finish d.expr ∈ before →
    ∃ c, c.node = d ∧ w.Begins f m c ∧ w.CallEnds c (w.invocations c)
  failing : ∀ d : CallNode, .finish d.expr = a →
    ∃ c, c.node = d ∧ w.Begins f m c ∧ w.CallFails c e (w.invocations c)
  begun : ∀ c, w.Begins f m c →
    .finish c.node.expr ∈ before ∧ w.CallEnds c (w.invocations c) ∨
      .finish c.node.expr = a ∧ w.CallFails c e (w.invocations c)
  later : ∀ c, w.Begins f m c → .finish c.node.expr ∉ after

/-- **A walk fails for a cause**: at a parameter, before any call was begun, or at a step. -/
inductive Fails (w : Walk σ) (f : Function) (m : Machine σ) : Fault → Machine σ → Prop where
  /-- A dimension of a parameter does not fit; the cause tells the first one. -/
  | parameter {v : Int} {n : Machine σ} : w.aspect = .values →
      f.paramDims.findSome? overflow? = some v → (∀ c, ¬w.Begins f m c) →
      n = { m with next := n.next } → Fails w f m (.dimensionOverflow v) n
  | step {before after : List EvalStep} {a : EvalStep} {e : Fault} {n : Machine σ} :
      w.FailsAt f m before a after e n → Fails w f m e n

section

variable {w : Walk σ} {f : Function} {m n n₀ n₁ n₂ : Machine σ} {e : Fault} {s s₁ s₂ : Progress}
  {before after : List EvalStep} {a b : EvalStep} {inputs : List Tensor}

/-- Binding the parameters fails before anything is visited. -/
private theorem fails_of_bindParams (h : w.bindParams .start f.params m = (.fault e, n)) :
    w.Fails f m e n := by
  have hbegun : ∀ c, ¬w.Begins f m c := by
    rintro c ⟨a, ⟨inputs, s, n', hparams, -⟩, -⟩
    rw [h] at hparams
    cases hparams
  have hmachine := (w.plain_bindParams f.params .start).machine m
  rw [h] at hmachine
  cases hw : w.aspect with
  | values =>
    have hchecks := w.checks_bindParams hw f.params .start m
    rw [h] at hchecks
    cases hdims : f.paramDims.findSome? overflow? with
    | some v =>
      rw [Function.paramDims] at hdims
      rw [hdims] at hchecks
      cases hchecks
      exact .parameter hw hdims hbegun hmachine
    | none =>
      rw [Function.paramDims] at hdims
      rw [hdims] at hchecks
      obtain ⟨_, hchecks⟩ := hchecks
      cases hchecks
  | shapes =>
    obtain ⟨_, hchecks⟩ := w.checks_bindParams_shapes hw f.params .start m
    rw [h] at hchecks
    cases hchecks

/-- Where a step fails, none behind it is reached. -/
private theorem reaches_of_fault (hbefore : w.performAll s before n₀ = (.ok s₁, n₁))
    (ha : w.perform s₁ a n₁ = (.fault e, n))
    (h : w.Reaches s (before ++ a :: after) n₀ b s₂ n₂) :
    w.Reaches s before n₀ b s₂ n₂ ∨ b = a ∧ s₂ = s₁ ∧ n₂ = n₁ := by
  obtain h | ⟨s', n', hrun, h⟩ := reaches_append_iff.mp h
  · exact Or.inl h
  · rw [hbefore] at hrun
    cases hrun
    obtain ⟨rfl, rfl, rfl⟩ | ⟨s', n', hstep, -⟩ := reaches_cons_iff.mp h
    · exact Or.inr ⟨rfl, rfl, rfl⟩
    · rw [ha] at hstep
      cases hstep

/-- What is reached among steps that end well ends well. -/
private theorem Reaches.ends (h : w.Reaches s before n₀ b s₂ n₂)
    (hbefore : w.performAll s before n₀ = (.ok s₁, n₁)) :
    ∃ s₃ n₃, w.perform s₂ b n₂ = (.ok s₃, n₃) := by
  obtain ⟨front, back, rfl, hfront⟩ := h
  rw [performAll_append] at hbefore
  obtain ⟨s', n', hrun, hback⟩ := bind_eq_ok_iff.mp hbefore
  rw [hfront] at hrun
  cases hrun
  obtain ⟨s₃, n₃, hstep, -⟩ := bind_eq_ok_iff.mp hback
  exact ⟨s₃, n₃, hstep⟩

private theorem callEnds_of_perform {c : Begun σ}
    (hinputs : c.inputs = c.node.call.args.flatMap s.kept)
    (h : w.perform s (.finish c.node.expr) c.machine = (.ok s₁, n)) :
    w.CallEnds c (w.invocations c) := by
  obtain ⟨⟨ts, s₂⟩, n₂, hfinish, -⟩ := bind_eq_ok_iff.mp h
  have hrun : w.finishCall s c.node.call c.inputs c.machine = (.ok (ts, s₂), n₂) := by
    rw [hinputs]
    exact hfinish
  exact callEnds_of_ok hrun

private theorem callFails_of_perform {c : Begun σ}
    (hinputs : c.inputs = c.node.call.args.flatMap s.kept)
    (h : w.perform s (.finish c.node.expr) c.machine = (.fault e, n)) :
    w.CallFails c e (w.invocations c) := by
  obtain hfinish | ⟨_, _, _, hend⟩ := bind_eq_fault_iff.mp h
  · refine callFails_of_fault (p := s) (n := n) ?_
    rw [hinputs]
    exact hfinish
  · cases hend

/-- The first step that fails, and what was begun up to there. -/
private theorem failsAt_of_perform (hf : f.Coherent)
    (hparams : w.bindParams .start f.params m = (.ok (inputs, s), n₀))
    (hsteps : f.evalSteps = before ++ a :: after)
    (hbefore : w.performAll s before n₀ = (.ok s₁, n₁))
    (ha : w.perform s₁ a n₁ = (.fault e, n)) : w.FailsAt f m before a after e n := by
  have hbegun : ∀ c, w.Begins f m c →
      .finish c.node.expr ∈ before ∧ w.CallEnds c (w.invocations c) ∨
        .finish c.node.expr = a ∧ w.CallFails c e (w.invocations c) := by
    intro c hc
    obtain ⟨inputs', s', n', s₂, hparams', hreach, hinputs⟩ := (begins_iff_reaches hf).mp hc
    rw [hparams] at hparams'
    cases hparams'
    rw [hsteps] at hreach
    obtain hreach | ⟨rfl, rfl, hmachine⟩ := reaches_of_fault hbefore ha hreach
    · obtain ⟨s₃, n₃, hstep⟩ := hreach.ends hbefore
      obtain ⟨front, back, rfl, -⟩ := hreach
      exact Or.inl ⟨List.mem_append_right _ List.mem_cons_self, callEnds_of_perform hinputs hstep⟩
    · exact Or.inr ⟨rfl, callFails_of_perform hinputs (hmachine ▸ ha)⟩
  refine ⟨hsteps, ⟨inputs, s, n₀, s₁, n₁, hparams, hbefore, stepFails_of_fault ha, ha⟩, ?_, ?_,
    hbegun, ?_⟩
  · intro d hd
    obtain ⟨front, back, rfl⟩ := List.append_of_mem hd
    rw [performAll_append] at hbefore
    obtain ⟨s₂, n₂, hfront, hback⟩ := bind_eq_ok_iff.mp hbefore
    obtain ⟨s₃, n₃, hstep, -⟩ := bind_eq_ok_iff.mp hback
    let c : Begun σ := ⟨d, d.call.args.flatMap s₂.kept, n₂⟩
    have hreach : w.Reaches s f.evalSteps n₀ (.finish c.node.expr) s₂ c.machine :=
      ⟨front, back ++ a :: after, by rw [hsteps, List.append_assoc, List.cons_append], hfront⟩
    exact ⟨c, rfl, (begins_iff_reaches hf).mpr ⟨inputs, s, n₀, s₂, hparams, hreach, rfl⟩,
      callEnds_of_perform rfl hstep⟩
  · rintro d rfl
    let c : Begun σ := ⟨d, d.call.args.flatMap s₁.kept, n₁⟩
    have hreach : w.Reaches s f.evalSteps n₀ (.finish c.node.expr) s₁ c.machine :=
      ⟨before, after, hsteps, hbefore⟩
    exact ⟨c, rfl, (begins_iff_reaches hf).mpr ⟨inputs, s, n₀, s₁, hparams, hreach, rfl⟩,
      callFails_of_perform rfl ha⟩
  · -- no step occurs twice
    have hnodup : (before ++ a :: after).Nodup := hsteps ▸ f.nodup_evalSteps.of_map
    obtain ⟨-, hafter, hapart⟩ := List.nodup_append.mp hnodup
    intro c hc hlater
    obtain ⟨hmem, -⟩ | ⟨rfl, -⟩ := hbegun c hc
    · exact hapart _ hmem _ (List.mem_cons_of_mem a hlater) rfl
    · exact (List.nodup_cons.mp hafter).1 hlater

/-- **A lowering that fails stops at the first step that fails.** -/
theorem fails_of_lower (hf : f.Coherent) (h : w.lower f m = (.fault e, n)) : w.Fails f m e n := by
  rw [lower_eq_performAll w hf] at h
  obtain h | ⟨⟨inputs, s⟩, n₀, hparams, h⟩ := bind_eq_fault_iff.mp h
  · exact fails_of_bindParams h
  · obtain h | ⟨_, _, _, hend⟩ := bind_eq_fault_iff.mp h
    · obtain ⟨before, a, after, s₁, n₁, hsteps, hbefore, ha⟩ := performAll_eq_fault_iff.mp h
      exact .step (failsAt_of_perform hf hparams hsteps hbefore ha)
    · cases hend

end

end Walk

/-! ### Faults that are not wrapped -/

/-- The fault is not that of a request. -/
def Fault.Unwrapped (e : Fault) : Prop := ∀ cause source, e ≠ .lowering cause source

private theorem Outcome.fault?_eq_some_iff {o : Outcome α} {e : Fault} :
    o.fault? = some e ↔ o = .fault e := by
  cases o with
  | fault e' => rw [Outcome.fault?, Option.some.injEq, Outcome.fault.injEq]
  | ok | panic | stalled => exact iff_of_false nofun nofun

private theorem Outcome.eq_of_fault? {r : Outcome α × Machine σ} {e : Fault}
    (h : r.1.fault? = some e) : r = (.fault e, r.2) :=
  Prod.ext (fault?_eq_some_iff.mp h) rfl

/-- An action that issues no requests and does not end with the fault of one. -/
structure Action.Unwrapped (P : α → Prop) (x : Action σ α) : Prop extends Action.Quiet P x where
  fault : ∀ m e, (x m).1 = .fault e → e.Unwrapped

/-- They issue no requests. -/
private theorem Collaborators.Keeps.quiet {c : Collaborators σ} (hc : c.Keeps Action.Unwrapped) :
    c.Quiet := by
  have hquiet := hc.imp discipline_quiet.toClosed fun h => h.toQuiet
  exact ⟨hquiet.strategy, hquiet.shapeFunction, hquiet.build⟩

section

variable {w : Walk σ} {c : Begun σ} {e : Fault} {invoked : List (Invocation σ)} {f : Function}
  {m n : Machine σ} (hw : w.collaborators.Keeps Action.Unwrapped)

include hw

private theorem Walk.CallFails.unwrapped (h : w.CallFails c e invoked) : e.Unwrapped := by
  cases h with
  | dimension | noStrategy | noImplementation | noShapeFunction | shapeCount => exact nofun
  | strategy hconsults hfault =>
    obtain ⟨-, -, hs⟩ := hconsults
    exact (hw.strategy _ _ _ hs _ _ _ _).fault _ e (Outcome.fault?_eq_some_iff.mp hfault)
  | @implementation site s m offer before after i done n e hconsults hoffer hdue hdone hfault =>
    obtain ⟨-, -, hs⟩ := hconsults
    have hkeeps := (hw.strategy _ _ _ hs _ _ _ _).result _ offer hoffer
    have hi : i ∈ offer.applicable :=
      mem_of_mem_due (hdue ▸ List.mem_append_right before List.mem_cons_self)
    exact (hkeeps.applicable i hi _ _ _).fault _ e (Outcome.fault?_eq_some_iff.mp hfault)
  | shapeFunction _ hf hfault =>
    exact (hw.shapeFunction _ _ _ hf _ _ _).fault _ e (Outcome.fault?_eq_some_iff.mp hfault)

private theorem Walk.Fails.unwrapped (h : w.Fails f m e n) : e.Unwrapped := by
  cases h with
  | parameter => exact nofun
  | step h =>
    obtain ⟨_, _, _, _, _, _, _, hfails, _⟩ := h.fails
    cases hfails with
    | freeVariable | constant | projection => exact nofun
    | call _ _ hcall => exact hcall.unwrapped hw

end

/-! ### Requests that fail -/

/-- The function that is asked for. -/
def Source.requested : Source → Function
  | .function f => f
  | .key k => k.source

section

variable {g : Engine σ} {source : Source} {target : Option Target} {key : CacheKey}
  {aspect : Aspect} {m n : Machine σ} {e : Fault}

private theorem Source.source_of_key? (h : source.key? target = .ok key) :
    key.source = source.requested := by
  cases source with
  | key k =>
    cases h
    rfl
  | function f =>
    cases target with
    | some t =>
      cases h
      rfl
    | none => cases h

private theorem Source.key?_eq_error (h : source.key? target = .error e) : e = .missingTarget := by
  cases source with
  | key k => cases h
  | function f =>
    cases target with
    | some t => cases h
    | none =>
      cases h
      rfl

private theorem exists_of_mapFault {x : Action σ α} {f : Fault → Fault}
    (h : mapFault f x m = (.fault e, n)) : ∃ cause, x m = (.fault cause, n) ∧ f cause = e := by
  obtain ⟨ho, rfl⟩ := Prod.mk.inj h
  cases hrun : (x m).1 with
  | fault cause =>
    rw [hrun] at ho
    exact ⟨cause, Prod.ext hrun rfl, Outcome.fault.inj ho⟩
  | ok | panic | stalled =>
    rw [hrun] at ho
    cases ho

private theorem entryOf_ne_fault (aspect : Aspect) (slot : Nat) (m : Machine σ) (e : Fault)
    (n : Machine σ) : entryOf aspect slot m ≠ (.fault e, n) := by
  unfold entryOf
  split <;> nofun

/-- A request fails if its lowering does, and takes its slot away again. -/
theorem obtain_fails {lower : Action σ Artifact} (h : obtain aspect key lower m = (.fault e, n)) :
    ∃ busy freed n', lower (m.modifyCache aspect fun _ => busy) = (.fault e, n') ∧
      n = n'.modifyCache aspect freed := by
  rcases hslot : (m.cache aspect).slotFor key with ⟨slot, cache⟩
  cases hbusy : cache.isBusy slot with
  | true =>
    simp only [obtain, hslot, hbusy, if_true] at h
    cases h
  | false =>
    cases hcontent : cache.content? slot with
    | some entry =>
      rw [obtain_hit hslot hbusy hcontent] at h
      cases h
    | none =>
      rw [obtain_miss hslot hbusy hcontent] at h
      rcases hrun : lower (m.modifyCache aspect fun _ => cache.setBusy slot true) with ⟨o, n'⟩
      rw [hrun] at h
      cases o with
      | fault e' =>
        cases h
        exact ⟨_, _, n', hrun, rfl⟩
      | ok | panic | stalled => cases h

private theorem Engine.lowerArtifact_fails (h : g.lowerArtifact aspect key m = (.fault e, n)) :
    (g.walk aspect key).lower key.source m = (.fault e, n) := by
  rw [Engine.lowerArtifact_eq_claim] at h
  obtain h | ⟨lowered, m', -, h⟩ := bind_eq_fault_iff.mp h
  · exact h
  · cases h

/-- **A request that fails.** Collaborators issue no requests and return no fault of one.

* Without a target a function has no key. The request fails with just that, and nothing is done.
* Otherwise the fault is wrapped once, with the text of the function that was asked for. Its cause
  is that of the first step that fails: with all steps before it everything was invoked that had to
  be, and nothing for a step behind it (`Walk.Fails`). But for the slot the machine is left as this
  step leaves it, and no name was taken. -/
theorem Engine.lower_fails (hg : g.collaborators.Keeps Action.Unwrapped) (source : Source)
    (hf : source.requested.Coherent) (aspect : Aspect) (target : Option Target) (m : Machine σ) :
    (∀ e, source.key? target = .error e → e = .missingTarget ∧
      g.lower aspect source target m = (.fault .missingTarget, m) ∧
      g.jit source target m = (.fault .missingTarget, m)) ∧
    ∀ key, source.key? target = .ok key → ∀ e n, g.lower aspect source target m = (.fault e, n) →
      ∃ cause busy freed n', e = .lowering cause source.requested.text ∧ cause.Unwrapped ∧
        (g.walk aspect key).Fails source.requested (m.modifyCache aspect fun _ => busy) cause n' ∧
        n = n'.modifyCache aspect freed ∧ n.names = m.names := by
  constructor
  · intro e he
    obtain rfl := Source.key?_eq_error he
    refine ⟨rfl, ?_, ?_⟩
    · simp only [Engine.lower, Engine.forKey, he]
      rfl
    · simp only [Engine.jit, Engine.forKey, he]
      rfl
  · intro key hkey e n h
    simp only [Engine.lower, Engine.forKey, hkey] at h
    obtain ⟨cause, hrun, rfl⟩ := exists_of_mapFault h
    have hsource := Source.source_of_key? hkey
    have hobtain : obtain aspect key (g.lowerArtifact aspect key) m = (.fault cause, n) := by
      obtain hrun | ⟨slot, m', -, hrest⟩ := bind_eq_fault_iff.mp hrun
      · exact hrun
      · obtain hentry | ⟨_, _, _, hend⟩ := bind_eq_fault_iff.mp hrest
        · exact absurd hentry (entryOf_ne_fault aspect slot m' cause n)
        · cases hend
    obtain ⟨busy, freed, n', hartifact, rfl⟩ := obtain_fails hobtain
    have hlower := Engine.lowerArtifact_fails hartifact
    rw [hsource] at hlower
    have hfails := Walk.fails_of_lower hf hlower
    refine ⟨cause, busy, freed, n', by rw [hsource], hfails.unwrapped hg, hfails, rfl, ?_⟩
    -- names are taken when a lowering has ended well, and collaborators take none
    have hquiet := (Walk.quiet_lower (w := g.walk aspect key) hg.quiet source.requested).eq_world
      (m.modifyCache aspect fun _ => busy)
    have hnames := congrArg (fun r => r.2.names) (hlower.symm.trans hquiet)
    rw [Machine.names_modifyCache]
    exact hnames.trans (m.names_modifyCache aspect fun _ => busy)

end

/-! ### An example -/

/-- Three things can be wrong here: the sum, a constant that is too large, and a projection out of a
tensor. -/
def Function.threeFaults : Function :=
  let t : Ty := .tensor ⟨[.imm 2 .int64], .float 32⟩
  let x : Var := ⟨0, "x", t⟩
  let relu : Expr := .call 1 "nn.relu" .empty [.var 0 x] t
  .ofBody [x] (.tuple 5 [.call 2 "add" .empty [relu, .var 0 x] t,
    .const 3 ⟨[.imm 4294967296 .int64], .float 32⟩ [], .proj 4 relu 0])

private theorem Function.threeFaults_coherent : threeFaults.Coherent := by
  let t : Ty := .tensor ⟨[.imm 2 .int64], .float 32⟩
  let x : Var := ⟨0, "x", t⟩
  let relu : Expr := .call 1 "nn.relu" .empty [.var 0 x] t
  let nodes : List Expr := [.var 0 x, relu, .call 2 "add" .empty [relu, .var 0 x] t,
    .const 3 ⟨[.imm 4294967296 .int64], .float 32⟩ [], .proj 4 relu 0, threeFaults.body]
  let k : Catalogue := ⟨fun i => nodes.getD i default⟩
  have hrelu : relu.In k := ⟨rfl, rfl, trivial⟩
  exact ⟨k, rfl, ⟨rfl, hrelu, rfl, trivial⟩, rfl, ⟨rfl, hrelu⟩, trivial⟩

private theorem Collaborators.unwrapped_tunable (failing : String) :
    (tunable failing).Keeps Action.Unwrapped := by
  refine keeps_tunable (fun ha => ⟨quiet_pure ha, nofun⟩) (fun _ op => ⟨quiet_fail _, ?_⟩) failing
  intro m e he
  obtain rfl := Outcome.fault.inj he
  exact nofun

/-- The sum fails at its second implementation, and nothing that comes later is told. Without a
target nothing is lowered. -/
theorem Engine.lower_fails_threeFaults :
    let g : Engine Unit := ⟨.standard, .tunable "add"⟩
    let f := Function.threeFaults
    let target : Target := ⟨.llvm, .empty⟩
    let m : Machine Unit := .initial () 0
    let r := g.lower .values (.function f) (some target) m
    f.Coherent ∧ g.collaborators.Keeps Action.Unwrapped ∧
      r.1.fault? = some (.lowering (.noImplementation "add") f.text) ∧ r.2.names = m.names ∧
      (∃ busy n, (g.walk .values (.of f target)).Fails f (m.modifyCache .values fun _ => busy)
        (.noImplementation "add") n) ∧
      g.lower .values (.function f) none m = (.fault .missingTarget, m) := by
  intro g f target m r
  have hf : f.Coherent := Function.threeFaults_coherent
  have hg : g.collaborators.Keeps Action.Unwrapped := Collaborators.unwrapped_tunable "add"
  have hfault : r.1.fault? = some (.lowering (.noImplementation "add") f.text) := by
    decide +kernel
  have hrun := Outcome.eq_of_fault? hfault
  obtain ⟨cause, busy, _, n, heq, _, hfails, _, hnames⟩ :=
    (Engine.lower_fails hg (.function f) hf .values (some target) m).2 _ rfl _ _ hrun
  have hcause : .noImplementation "add" = cause := (Fault.lowering.inj heq).1
  obtain ⟨-, hmissing, -⟩ := (Engine.lower_fails hg (.function f) hf .values none m).1 _ rfl
  exact ⟨hf, hg, hfault, hnames, ⟨busy, n, hcause ▸ hfails⟩, hmissing⟩

end TensorLowering
