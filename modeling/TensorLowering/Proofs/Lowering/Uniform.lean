import TensorLowering.Proofs.Lowering.Invocations

/-!
# Uniform and equivariant collaborators

No one knows which numbers are drawn for symbolic variables and tensors. If the collaborators do
alike whatever they are, then a function is lowered alike whatever they are. That is asked in two
ways, which differ in what may be known of tensors.

Collaborators are *uniform* (`Collaborators.Uniform`) if they do alike with what looks alike. Given
tensors that look alike and types that correspond, on two machines, they fail with the same fault
or return what looks alike again. So they leave what they keep as it is, and take a tensor for what
it shows when it is unfolded, whatever its number and name. *Equivariant* ones
(`Collaborators.Equivariant`) may also ask how tensors are called and which of them are the same.
An implementation that is offered has to be so from then on, also when tensors and variables were
made in between (`Implementation.AlikeIn`).

In both ways symbolic variables may be renumbered one to one, and no order is kept. So it is asked
of the guards that are offered for a call that it does not depend on such an order whether they are
proved (`Walk.Steady`); then the call is lowered alike (`Walk.ends_lowerCall_of_steady`).
-/

namespace TensorLowering

open Setting TensorLowering.Action

variable {σ : Type}

/-- **Uniform collaborators** do alike with what looks alike. -/
abbrev Collaborators.Uniform (c : Collaborators σ) (k : Setting σ) : Prop :=
  c.AlikeIn Correspondence.Loose k

/-- **Equivariant collaborators** do alike when variables and tensors are renumbered. -/
abbrev Collaborators.Equivariant (c : Collaborators σ) (k : Setting σ) : Prop :=
  c.AlikeIn Correspondence.Strict k

/-! ### Guards -/

/-- The guards that a strategy offers when it is invoked. -/
def Invocation.guards : Invocation σ → List IndexExpr
  | .strategy s r target m =>
    match (s r.attrs r.inputs r.type target m).1 with
    | .ok o => o.guards
    | .fault _ | .panic | .stalled => []
  | .implementation .. | .shapeFunction .. => []

namespace Walk

/-- All guards that are offered for the call are steady. -/
def Steady (v : Walk σ) (c : Begun σ) : Prop :=
  ∀ i ∈ v.invocations c, ∀ e ∈ i.guards, e.Steady

variable {v : Walk σ} {c : Begun σ} {type : Ty} {next : Nat} {e : IndexExpr}

/-- It has to be asked only where values are lowered: for shapes no guard is offered. -/
theorem steady_of_values (h : v.aspect = .values → v.Steady c) : v.Steady c := by
  cases haspect : v.aspect with
  | values => exact h haspect
  | shapes =>
    intro i hi e he
    obtain ⟨hvalues, -⟩ | ⟨-, f, -, rfl⟩ := mem_invocations hi
    · rw [haspect] at hvalues
      cases hvalues
    · cases he

/-- The guards that are offered for a choice are those of the invocations. -/
theorem Steady.of_guards (h : v.Steady c) (haspect : v.aspect = .values)
    (hnormal : c.node.call.type.normalize c.machine.lots c.machine.next = .ok (type, next))
    (he : v.collaborators.Guards (c.site type) v.target (c.entered next) e) : e.Steady := by
  obtain ⟨s, o, n, hs, hrun, he⟩ := he
  let m : Machine σ :=
    { c.entered next with thread := (c.entered next).thread.enter v.target }
  have hoffer : (s (c.site type).attrs (c.site type).inputs (c.site type).type v.target m).1 =
      .ok o := congrArg Prod.fst hrun
  refine h (.strategy s (c.site type) v.target m) ?_ e ?_
  · rw [invocations_of_ok haspect hnormal]
    simp only [selecting, hs]
    exact List.mem_cons_self
  · simp only [Invocation.guards, hoffer]
    exact he

/-! ### Calls that are begun -/

variable {D : Correspondence → Prop} {k : Setting σ} {w : Correspondence} {call' : Call}
  {inputs' : List Tensor} {m' : Machine σ}

/-- A call that is begun is lowered alike if a candidate is chosen alike on the machine that the
candidates are looked for on. Costs may be asked for on one side only. -/
theorem ends_lowerCall_of_choose (hD : Correspondence.Closed D) (hw : D w)
    (hcall : c.node.call.Alike call')
    (htype : Ty.Alike w.numbers c.node.call.type c.node.call.type)
    (hinputs : w.SameAll c.inputs inputs') (hm : k.Holds w c.machine m') (useCosts' : Bool)
    (hchoose : ∀ w' type next site' n', D w' → (c.site type).Alike w' site' →
      c.node.call.type.normalize c.machine.lots c.machine.next = .ok (type, next) →
      k.Holds w' (c.entered next) n' → k.Ends w' (fun w a b => D w ∧ LoweredCall.Alike w a b)
        (v.choose c.node.call (c.site type) (c.entered next))
        (v.collaborators.choose v.target (useCosts' && !c.node.call.isDynamic) site' n')) :
    k.Ends w (fun w a b => D w ∧ LoweredCall.Alike w a b)
      (lowerCall v.collaborators v.target v.useCosts c.node.call c.inputs c.machine)
      (lowerCall v.collaborators v.target useCosts' call' inputs' m') := by
  have hnormal : k.SideBySideIn D w (fun w => Ty.Alike w.numbers)
      (takeNumbers fun lots next => c.node.call.type.normalize lots next)
      (takeNumbers fun lots next => c.node.call.type.normalize lots next) := by
    refine (SideBySide.takeNumbers fun lots lots' =>
      Correspondence.draws_normalize htype).imp ?_
    exact fun w' _ _ hw' ht => ⟨hD.draw w w' hw' ht.1 hw, ht.2⟩
  refine SideBySide.ends_lowerCall hcall hnormal hinputs hm ?_
  intro w₁ type type' n n' t t' hD₁ hsite hrun ht hn
  obtain ⟨next, hnext, rfl⟩ := takeNumbers_eq_ok_iff.mp hrun
  have hentered : { c.machine with next, thread := t } = c.entered next := by
    have hthread : t = if c.machine.excludes c.node.call.op then c.machine.thread.suspend
      else c.machine.thread := ht
    rw [Begun.entered, hthread]
    split <;> rfl
  rw [hentered] at hn ⊢
  exact hchoose w₁ type next _ _ hD₁ hsite hnext hn

/-- **A call that is begun is lowered alike, if the guards that are offered are steady.** -/
theorem ends_lowerCall_of_steady (hD : Correspondence.Closed D) (hw : D w)
    (hv : v.collaborators.AlikeIn D k) (haspect : v.aspect = .values) (hsteady : v.Steady c)
    (hcall : c.node.call.Alike call')
    (htype : Ty.Alike w.numbers c.node.call.type c.node.call.type)
    (hinputs : w.SameAll c.inputs inputs') (hm : k.Holds w c.machine m') :
    k.Ends w (fun w a b => D w ∧ LoweredCall.Alike w a b)
      (lowerCall v.collaborators v.target v.useCosts c.node.call c.inputs c.machine)
      (lowerCall v.collaborators v.target v.useCosts call' inputs' m') := by
  refine ends_lowerCall_of_choose hD hw hcall htype hinputs hm v.useCosts ?_
  intro w₁ type next site' n' hD₁ hsite hnormal hn
  refine SideBySide.ends_choose hv hD₁ hsite v.target _ hn fun e he => ?_
  exact (hsteady.of_guards haspect hnormal he).decides D

/-- That is so of all calls if no strategy ever offers another guard. -/
theorem steady_of_strategies (v : Walk σ)
    (h : ∀ own op s, v.collaborators.strategy? own op = some s → ∀ attrs inputs type target m o,
      (s attrs inputs type target m).1 = .ok o → ∀ e ∈ o.guards, e.Steady) (c : Begun σ) :
    v.Steady c := by
  have hselecting (site : CallSite) (m : Machine σ) :
      ∀ i ∈ v.selecting c.node.call site m, ∀ e ∈ i.guards, e.Steady := by
    refine selecting_log (m := m) (fun done _ => ∀ i ∈ done, ∀ e ∈ i.guards, e.Steady) [] ?_ ?_ ?_
    · intro s hs i hi e he
      obtain rfl := List.mem_singleton.mp hi
      simp only [Invocation.guards] at he
      split at he
      · next o ho => exact h _ _ s hs _ _ _ _ _ o ho e he
      all_goals cases he
    · -- implementations offer nothing
      intro is n _ done n' i _ hdone j hj e he
      obtain hj | hj := List.mem_append.mp hj
      · exact hdone j hj e he
      · obtain rfl := List.mem_singleton.mp hj
        cases he
    · nofun
  intro i hi e he
  obtain ⟨-, type, next, -, hi⟩ | ⟨-, f, -, rfl⟩ := mem_invocations hi
  · exact hselecting _ _ i hi e he
  · cases he

end Walk

/-! ### An example -/

/-- Collaborators that offer two implementations for every operator, the one with the greater
priority under a condition. Both can be tuned. -/
def Collaborators.twoWays (condition : List Tensor → Option (List IndexExpr)) :
    Collaborators Unit where
  strategy? _ op := some fun _ inputs _ _ => return ⟨[
    ⟨none, [.pointwise (op ++ ".safe") 5 (some ⟨op ++ ".safe", []⟩)]⟩,
    ⟨condition inputs, [.pointwise (op ++ ".fast") 10 (some ⟨op ++ ".fast", []⟩)]⟩]⟩
  shapeFunction? _ _ := none
  build a := return .ofArtifact 0 a

/-- They do alike if the conditions correspond. -/
theorem Collaborators.alikeIn_twoWays {condition : List Tensor → Option (List IndexExpr)}
    {D : Correspondence → Prop} (hD : Correspondence.Closed D) (k : Setting Unit)
    (hcondition : ∀ (w : Correspondence) inputs inputs', w.SameAll inputs inputs' →
      Option.Rel (List.Forall₂ (IndexExpr.Alike w.numbers)) (condition inputs)
        (condition inputs')) :
    (twoWays condition).AlikeIn D k := by
  have halike (w : Correspondence) (name : String) (priority : Int) (workload : Option Workload) :=
    Implementation.alikeIn_pointwise k hD.make w name priority workload
  refine ⟨fun op s hs w hw attrs inputs inputs' type type' target hinputs _ => ?_, nofun⟩
  obtain rfl := Option.some.inj hs
  refine .pure ⟨hw, .cons ⟨.none, .cons (halike w _ _ _) .nil⟩ (.cons ⟨?_, ?_⟩ .nil)⟩
  · exact hcondition w inputs inputs' hinputs
  · exact .cons (halike w _ _ _) .nil

/-- The condition that the sum of the first two dimensions may be halved either way. -/
def halvesAgree : List Tensor → Option (List IndexExpr)
  | [] => none
  | t :: _ => match t.shape with
    | lhs :: rhs :: _ => some [.roundedHalves lhs rhs]
    | _ => none

/-- For tensors that correspond it is the same condition. -/
theorem optionRel_halvesAgree (w : Correspondence) (inputs inputs' : List Tensor)
    (h : w.SameAll inputs inputs') :
    Option.Rel (List.Forall₂ (IndexExpr.Alike w.numbers)) (halvesAgree inputs)
      (halvesAgree inputs') := by
  cases h with
  | nil => exact .none
  | @cons t t' ts ts' ht _ =>
    have hshape := Tensor.Alike.shape t t' ht.alike
    simp only [halvesAgree]
    generalize t.shape = shape at hshape
    generalize t'.shape = shape' at hshape
    cases hshape with
    | nil => exact .none
    | cons hl hrest =>
      cases hrest with
      | nil => exact .none
      | cons hr _ =>
        have hsum := IndexExpr.Alike.arith .add hl hr
        refine .some (.cons (.compare .eq (.arith .floorDiv ?_ (.imm _ _))
          (.arith .floorDiv ?_ (.imm _ _))) .nil)
        · exact .arith .add hsum (.imm _ _)
        · exact .arith .add (.imm _ _) hsum

/-- A sum of a parameter with itself; its occurrences have the numbers given. -/
def Function.double (x : Var) (i j : Nat) : Function :=
  .ofBody [x] (.call 0 "add" .empty [.var i x, .var j x] x.type)

/-- Its parts are the call and the occurrences of the parameter. -/
theorem Function.double_within {x : Var} {i j : Nat} {e : Expr}
    (h : e.Within (Function.double x i j).body) :
    e = (Function.double x i j).body ∨ e = .var i x ∨ e = .var j x := by
  cases h with
  | refl => exact Or.inl rfl
  | call id op attrs t ha he =>
    obtain rfl | ha := List.mem_cons.mp ha
    · cases he
      exact Or.inr (Or.inl rfl)
    · obtain rfl := List.mem_singleton.mp ha
      cases he
      exact Or.inr (Or.inr rfl)

/-- Its symbolic variables are those of the type. -/
theorem Function.double_below {x : Var} {i j old : Nat} (h : x.type.Below old) :
    (Function.double x i j).Below old := by
  refine ⟨?_, ?_, ?_⟩
  · intro y hy
    obtain rfl := List.mem_singleton.mp hy
    exact h
  · intro id t data hconst
    obtain h | h | h := Function.double_within hconst
    all_goals exact nomatch h
  · intro id op attrs args t hcall
    obtain hcall | h | h := Function.double_within hcall
    · obtain ⟨-, -, -, -, rfl⟩ := Expr.call.inj hcall
      exact h
    · exact nomatch h
    · exact nomatch h

/-- For the sum, the implementation is chosen that is chosen for its call. -/
private theorem Walk.implementations?_double {σ : Type} {v : Walk σ} (haspect : v.aspect = .values)
    {type : Ty} {m n n' : Machine σ} {ts : List Tensor} {l : LoweredCall}
    (hparams : v.bindParams .start [⟨0, "x", type⟩] m =
      (.ok (ts, .bind .start ⟨0, "x", type⟩ ts), n))
    (hcall : lowerCall v.collaborators v.target v.useCosts
      ⟨"add", .empty, [.var 1 ⟨0, "x", type⟩, .var 1 ⟨0, "x", type⟩], type⟩ (ts ++ (ts ++ [])) n =
        (.ok l, n')) :
    (v.lower (.double ⟨0, "x", type⟩ 1 1) m).1.implementations? = some [l.implementation] := by
  let s : Progress := (Progress.bind .start ⟨0, "x", type⟩ ts).remember 1 ts
  have hvisit : v.visit (.bind .start ⟨0, "x", type⟩ ts) (Function.double ⟨0, "x", type⟩ 1 1).body n
      = (.ok (l.outputs, ((s.reach "add").choose l).remember 0 l.outputs), n') := by
    rw [v.visit_of_lookup_none rfl]
    refine bind_eq_ok_iff.mpr ⟨(l.outputs, (s.reach "add").choose l), n', ?_, rfl⟩
    refine bind_eq_ok_iff.mpr ⟨(ts ++ (ts ++ []), s), n, rfl, ?_⟩
    simp only [finishCall, haspect]
    exact bind_eq_ok_iff.mpr ⟨l, n', hcall, rfl⟩
  have hlower : v.lower (.double ⟨0, "x", type⟩ 1 1) m =
      (.ok ⟨ts, l.outputs, [l], ["add"]⟩, n') :=
    bind_eq_ok_iff.mpr ⟨_, n, hparams, bind_eq_ok_iff.mpr ⟨_, n', hvisit, rfl⟩⟩
  rw [hlower]
  rfl

/-- The second implementation is chosen just if its condition is proved, which depends on the lot.
-/
theorem Walk.implementations?_halving (useCosts : Bool) (lot : Nat) :
    let type : Ty := .tensor ⟨[.unknown, .var ⟨3, "m", .int64⟩], .float 32⟩
    let v : Walk Unit := ⟨.twoWays halvesAgree, ⟨.llvm, .empty⟩, useCosts, .values⟩
    let guard := IndexExpr.roundedHalves (.var (unknownDimension ⟨lot, 4⟩)) (.var ⟨3, "m", .int64⟩)
    (v.lower (.double ⟨0, "x", type⟩ 1 1) (.initial () 4 fun _ => lot)).1.implementations? =
      some [if guard.proves [] then "add.fast" else "add.safe"] := by
  intro type v guard
  let n (next : Nat) : Machine Unit := { Machine.initial () 4 fun _ => lot with next }
  let x : Tensor := .placeholder 5 "x" [.var (unknownDimension ⟨lot, 4⟩), .var ⟨3, "m", .int64⟩]
    (.float 32)
  let site : CallSite := ⟨"add", .empty, [x, x],
    .tensor ⟨[.var (unknownDimension ⟨lot, 6⟩), .var ⟨3, "m", .int64⟩], .float 32⟩⟩
  let safe : Implementation Unit := .pointwise "add.safe" 5 (some ⟨"add.safe", []⟩)
  let fast : Implementation Unit := .pointwise "add.fast" 10 (some ⟨"add.fast", []⟩)
  let offer : Offer Unit := ⟨[⟨none, [safe]⟩, ⟨some [guard], [fast]⟩]⟩
  have hchosen (best : Implementation Unit) (hbest : firstByPriority? offer.applicable = some best)
      {outputs : List Tensor} {n' : Machine Unit}
      (hrun : best.compute site.attrs site.inputs site.type (n 7) = (.ok outputs, n')) :
      (v.lower (.double ⟨0, "x", type⟩ 1 1) (n 4)).1.implementations? = some [best.name] := by
    have hparams : v.bindParams .start [⟨0, "x", type⟩] (n 4) =
        (.ok ([x], .bind .start ⟨0, "x", type⟩ [x]), n 6) := rfl
    refine @implementations?_double _ _ rfl type _ _ (n'.noting v.target outputs) _
      ⟨best.name, best.priority, outputs⟩ hparams ?_
    refine bind_eq_ok_iff.mpr ⟨site.type, n 7, rfl, bind_eq_ok_iff.mpr ⟨false, n 7, rfl, ?_⟩⟩
    refine bind_eq_ok_iff.mpr ⟨offer.applicable, n 7, rfl, ?_⟩
    have hselect : select offer.applicable site v.target (useCosts && false) (n 7) =
        (.ok (best, outputs), n'.noting v.target outputs) := by
      rw [Bool.and_false]
      exact select_of_firstByPriority hbest hrun
    exact bind_eq_ok_iff.mpr ⟨(best, outputs), _, hselect, rfl⟩
  cases hguard : guard.proves [] with
  | true =>
    have happlicable : offer.applicable = [safe, fast] := by
      simp [Offer.applicable, offer, List.filter_cons, Specialization.applies, hguard]
    exact hchosen fast (by rw [happlicable]; rfl) rfl
  | false =>
    have happlicable : offer.applicable = [safe] := by
      simp [Offer.applicable, offer, List.filter_cons, Specialization.applies, hguard]
    exact hchosen safe (by rw [happlicable]; rfl) rfl
end TensorLowering
