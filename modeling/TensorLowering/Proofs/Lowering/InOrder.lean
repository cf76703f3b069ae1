import TensorLowering.Proofs.Graph.CallOrder
import TensorLowering.Proofs.Lowering.Transparent
import TensorLowering.Proofs.Lowering.VisitRule

/-!
# Calls are lowered one after the other

The walk that lowers a function meets a call as often as there are ways to it. It lowers the call
when it meets it for the first time, after the calls in its arguments. So if a lowering ends with a
value, the calls of the function were lowered once each, in the order of evaluation, and nothing
else was done but to take numbers from the supply (`Walk.lower_inOrder`). `InOrder` says what it is
to take a step for one call after the other: lowering it, or calling its shape function.

The walk keeps the tensors of a node when it leaves it, and it notes a call before it leaves the
node. While the walk is inside of a node, what was kept and what was noted agree on all other nodes
(`Walk.Settled`, `Walk.Entered`). That a call is not met within its own arguments is because the
graph is a tree of finite size in which equal numbers are equal nodes
(`CallNode.id_notMem_callsAll`).
-/

namespace TensorLowering

variable {σ α β : Type}

/-! ### Taking numbers -/

/-- Where the action ends with a value, it has changed nothing but the supply of numbers. -/
def Action.TakesNumbers (x : Action σ α) : Prop :=
  ∀ m a n, x m = (.ok a, n) → n = { m with next := n.next }

namespace Action

private theorem takesNumbers_pure (a : α) : TakesNumbers (pure a : Action σ α) := by
  intro m b n h
  obtain ⟨-, rfl⟩ := pure_eq_ok_iff.mp h
  rfl

/-- Two actions that only take numbers do so one after the other. -/
theorem TakesNumbers.bind {x : Action σ α} {f : α → Action σ β} (hx : TakesNumbers x)
    (hf : ∀ a, TakesNumbers (f a)) : TakesNumbers (x >>= f) := by
  intro m b n h
  obtain ⟨a, m', hm, hn⟩ := bind_eq_ok_iff.mp h
  have hm' : m' = { m with next := m'.next } := hx m a m' hm
  have hn' : n = { m' with next := n.next } := hf a m' b n hn
  exact hn'.trans (by rw [hm'])

private theorem takesNumbers_freshNumber : TakesNumbers (freshNumber : Action σ Nat) := by
  intro m a n h
  obtain ⟨-, rfl⟩ := Prod.mk.inj h
  rfl

private theorem takesNumbers_takeNumbers (f : (Nat → Nat) → Nat → Except Fault (α × Nat)) :
    TakesNumbers (takeNumbers f : Action σ α) := by
  intro m a n h
  unfold takeNumbers at h
  split at h
  · obtain ⟨-, rfl⟩ := Prod.mk.inj h
    rfl
  · exact nomatch (Prod.mk.inj h).1

private theorem takesNumbers_placeholder (name : String) (shape : List IndexExpr)
    (dtype : DataType) : TakesNumbers (placeholder name shape dtype : Action σ Tensor) :=
  takesNumbers_freshNumber.bind fun _ => takesNumbers_pure _

end Action

open TensorLowering.Action

private theorem takesNumbers_inputTensors (aspect : Aspect) (name : String) (ts : List TensorType) :
    TakesNumbers (inputTensors aspect name ts : Action σ (List Tensor)) := by
  induction ts with
  | nil => exact takesNumbers_pure []
  | cons t ts ih =>
    have hfirst : TakesNumbers (inputTensor aspect name t : Action σ Tensor) := by
      cases aspect with
      | values => exact (takesNumbers_takeNumbers _).bind fun _ => takesNumbers_placeholder _ _ _
      | shapes => exact takesNumbers_placeholder _ _ _
    exact hfirst.bind fun _ => ih.bind fun _ => takesNumbers_pure _

private theorem takesNumbers_constantTensor (aspect : Aspect) (t : TensorType) :
    TakesNumbers (constantTensor aspect t : Action σ Tensor) := by
  cases aspect with
  | values => exact (takesNumbers_takeNumbers _).bind fun _ => takesNumbers_placeholder _ _ _
  | shapes => exact takesNumbers_freshNumber.bind fun _ => takesNumbers_pure _

namespace Walk

private theorem takesNumbers_bindParams (w : Walk σ) (vs : List Var) (s : Progress) :
    TakesNumbers (w.bindParams s vs) := by
  induction vs generalizing s with
  | nil => exact takesNumbers_pure _
  | cons v vs ih =>
    exact (takesNumbers_inputTensors _ _ _).bind fun _ => (ih _).bind fun _ => takesNumbers_pure _

/-- Binding the parameters, no node is lowered. -/
theorem bindParams_memo {w : Walk σ} {vs : List Var} {s s' : Progress} {m n : Machine σ}
    {ts : List Tensor} (h : w.bindParams s vs m = (.ok (ts, s'), n)) :
    s'.memo = s.memo ∧ s'.calls = s.calls ∧ s'.ops = s.ops := by
  induction vs generalizing s m ts with
  | nil =>
    obtain ⟨-, rfl, -⟩ := pure_pair_eq_ok_iff.mp h
    exact ⟨rfl, rfl, rfl⟩
  | cons v vs ih =>
    obtain ⟨us, m₁, -, hafter⟩ := bind_eq_ok_iff.mp h
    obtain ⟨⟨rest, s₁⟩, m₂, hrest, hend⟩ := bind_eq_ok_iff.mp hafter
    obtain ⟨-, rfl, rfl⟩ := pure_pair_eq_ok_iff.mp hend
    have hsame := ih hrest
    exact hsame

end Walk

/-! ### Calls one after the other -/

/-- What is done for a call, given the tensors of its arguments, from one machine to another, and
the result. -/
abbrev CallStep (σ α : Type) : Type := Call → List Tensor → Machine σ → α → Machine σ → Prop

/-- `InOrder step m cs as n`: from the machine `m` on, the step was taken for every one of the calls
`cs` in turn, with the results `as`, and in the end the machine was `n`. Between the steps nothing
was done but to take numbers from the supply. -/
inductive InOrder (step : CallStep σ α) (m : Machine σ) :
    List CallNode → List α → Machine σ → Prop where
  | start : InOrder step m [] [] m
  | numbers {cs : List CallNode} {as : List α} {n : Machine σ} (next : Nat) :
      InOrder step m cs as n → InOrder step m cs as { n with next }
  | call {cs : List CallNode} {as : List α} {n n' : Machine σ} {c : CallNode}
      {inputs : List Tensor} {a : α} : InOrder step m cs as n → step c.call inputs n a n' →
      InOrder step m (cs ++ [c]) (as ++ [a]) n'

namespace InOrder

variable {step : CallStep σ α} {m n n' : Machine σ} {cs : List CallNode} {as : List α}

private theorem takesNumbers {x : Action σ β} {b : β} (hx : TakesNumbers x)
    (h : InOrder step m cs as n) (hrun : x n = (.ok b, n')) : InOrder step m cs as n' := by
  rw [hx n b n' hrun]
  exact h.numbers n'.next

/-- One result for each call. -/
private theorem length_eq (h : InOrder step m cs as n) : as.length = cs.length := by
  induction h with
  | start => rfl
  | numbers _ _ ih => exact ih
  | call _ _ ih => simp [ih]

/-- What is logged for each step stands in the log once for each call, in this order. -/
theorem log_eq (log : Machine σ → List β) (entry : Call → β)
    (hnumbers : ∀ n next, log { n with next } = log n)
    (hstep : ∀ call inputs n a n', step call inputs n a n' → log n' = log n ++ [entry call])
    (h : InOrder step m cs as n) : log n = log m ++ cs.map fun c => entry c.call := by
  induction h with
  | start => simp
  | numbers next _ ih => rw [hnumbers, ih]
  | call _ hcall ih => rw [hstep _ _ _ _ _ hcall, ih, List.map_append, List.append_assoc]; rfl

end InOrder

/-- Looking a shape function up changes nothing. -/
private theorem Collaborators.shapeFunction_eq_ok {c : Collaborators σ} {op : String}
    {s : ShapeFunction σ} {m n : Machine σ} (h : c.shapeFunction op m = (.ok s, n)) :
    c.shapeFunction? m.own op = some s ∧ n = m := by
  unfold Collaborators.shapeFunction at h
  cases hlookup : c.shapeFunction? m.own op with
  | none =>
    rw [hlookup] at h
    cases h
  | some found =>
    rw [hlookup] at h
    obtain ⟨rfl, rfl⟩ := pure_eq_ok_iff.mp h
    exact ⟨rfl, rfl⟩

namespace Walk

/-- Lowering one call. -/
def LowersCall (w : Walk σ) : CallStep σ LoweredCall := fun call inputs m lowered n =>
  lowerCall w.collaborators w.target w.useCosts call inputs m = (.ok lowered, n)

/-- Calling the shape function of an operator, once. -/
def CallsShapeFunction (w : Walk σ) : CallStep σ (List Tensor) := fun call inputs m outputs n =>
  ∃ shapeFunction, w.collaborators.shapeFunction? m.own call.op = some shapeFunction ∧
    shapeFunction call.attrs inputs (call.type.leaves.map TensorType.rank) m = (.ok outputs, n)

private theorem callsShapeFunction_of_ok {w : Walk σ} {call : Call} {inputs outputs : List Tensor}
    {m n : Machine σ}
    (h : callShapeFunction w.collaborators call inputs m = (.ok outputs, n)) :
    w.CallsShapeFunction call inputs m outputs n := by
  obtain ⟨shapeFunction, m₁, hlookup, hafter⟩ := bind_eq_ok_iff.mp h
  obtain ⟨us, m₂, hcall, hend⟩ := bind_eq_ok_iff.mp hafter
  obtain ⟨hfound, rfl⟩ := Collaborators.shapeFunction_eq_ok hlookup
  refine ⟨shapeFunction, hfound, ?_⟩
  split at hend
  · obtain ⟨rfl, rfl⟩ := pure_eq_ok_iff.mp hend
    exact hcall
  · cases hend

/-- What a walk that began at `m` has noted when the calls `done` were lowered. -/
structure Noted (w : Walk σ) (m : Machine σ) (done : List CallNode) (s : Progress)
    (n : Machine σ) : Prop where
  ops : s.ops.reverse = done.map fun c => c.call.op
  values : w.aspect = .values → InOrder w.LowersCall m done s.calls.reverse n
  shapes : w.aspect = .shapes → ∃ outputs, InOrder w.CallsShapeFunction m done outputs n

namespace Noted

variable {w : Walk σ} {m n n' : Machine σ} {done : List CallNode} {s s' : Progress}

private theorem takesNumbers {x : Action σ β} {b : β} (hx : TakesNumbers x) (h : w.Noted m done s n)
    (hrun : x n = (.ok b, n')) : w.Noted m done s n' := by
  refine ⟨h.ops, fun hw => (h.values hw).takesNumbers hx hrun, fun hw => ?_⟩
  obtain ⟨outputs, houtputs⟩ := h.shapes hw
  exact ⟨outputs, houtputs.takesNumbers hx hrun⟩

/-- What is noted depends only on the calls and the operators. -/
theorem of_eq (h : w.Noted m done s n) (hcalls : s'.calls = s.calls) (hops : s'.ops = s.ops) :
    w.Noted m done s' n :=
  ⟨hops ▸ h.ops, hcalls ▸ h.values, h.shapes⟩

/-- Finishing a call is one step more. -/
private theorem finishCall {c : CallNode} {inputs ts : List Tensor} (h : w.Noted m done s n)
    (hrun : w.finishCall s c.call inputs n = (.ok (ts, s'), n')) :
    w.Noted m (done ++ [c]) s' n' ∧ s'.memo = s.memo := by
  cases haspect : w.aspect with
  | values =>
    simp only [Walk.finishCall, haspect] at hrun
    obtain ⟨lowered, n₁, hlowered, hend⟩ := bind_eq_ok_iff.mp hrun
    obtain ⟨-, rfl, rfl⟩ := pure_pair_eq_ok_iff.mp hend
    have hstep : InOrder w.LowersCall m (done ++ [c]) (s.calls.reverse ++ [lowered]) n₁ :=
      (h.values haspect).call hlowered
    refine ⟨⟨?_, fun _ => ?_, fun hshapes => ?_⟩, rfl⟩
    · simp [Progress.reach, Progress.choose, h.ops]
    · simpa [Progress.reach, Progress.choose] using hstep
    · rw [haspect] at hshapes
      cases hshapes
  | shapes =>
    simp only [Walk.finishCall, haspect] at hrun
    obtain ⟨us, n₁, hus, hend⟩ := bind_eq_ok_iff.mp hrun
    obtain ⟨-, rfl, rfl⟩ := pure_pair_eq_ok_iff.mp hend
    obtain ⟨outputs, houtputs⟩ := h.shapes haspect
    refine ⟨⟨?_, fun hvalues => ?_, fun _ => ?_⟩, rfl⟩
    · simp [Progress.reach, h.ops]
    · rw [haspect] at hvalues
      cases hvalues
    · exact ⟨outputs ++ [us], houtputs.call (callsShapeFunction_of_ok hus)⟩

end Noted

/-! ### Nodes that were left -/

/-- What is known of the nodes that were left when the calls `done` were lowered: these calls are
among them, and with a node its calls were lowered. -/
structure Settled (k : Catalogue) (done : List CallNode) (s : Progress) : Prop where
  left : ∀ c ∈ done, s.memo.lookup c.id ≠ none
  calls : ∀ i, s.memo.lookup i ≠ none → ∀ c ∈ (k.node i).calls, c.id ∈ done.map CallNode.id

/-- The same within a node, which was not left yet. -/
structure Entered (k : Catalogue) (id : Nat) (done : List CallNode) (s : Progress) : Prop where
  left : ∀ c ∈ done, s.memo.lookup c.id ≠ none ∨ c.id = id
  calls : ∀ i, s.memo.lookup i ≠ none → ∀ c ∈ (k.node i).calls, c.id ∈ done.map CallNode.id

section

variable {w : Walk σ} {k : Catalogue} {m n n' : Machine σ} {done : List CallNode} {s s' : Progress}
  {e : Expr} {ts : List Tensor} {id : Nat}

/-- Where all is settled a node may be entered. -/
theorem Settled.entered (h : Settled k done s) (id : Nat) : Entered k id done s :=
  ⟨fun c hc => Or.inl (h.left c hc), h.calls⟩

/-- A node is left when its calls were lowered. -/
theorem Entered.leave (h : Entered k e.id done s) (he : e.In k)
    (hcalls : ∀ c ∈ e.calls, c.id ∈ done.map CallNode.id) (ts : List Tensor) :
    Settled k done (s.remember e.id ts) := by
  constructor
  · intro c hc
    rw [Progress.lookup_remember]
    split
    · simp
    · next hne => exact (h.left c hc).resolve_right hne
  · intro i hi
    rw [Progress.lookup_remember] at hi
    split at hi
    · next heq =>
      rw [heq, he.node]
      exact hcalls
    · exact h.calls i hi

/-- A call that was not among the calls before is not among those in its arguments. -/
theorem id_notMem_noteAllBy {c : CallNode} (hc : c.expr.In k)
    (hnew : c.id ∉ done.map CallNode.id) :
    c.id ∉ (noteAllBy CallNode.id done (Expr.callsAll c.call.args)).map CallNode.id := by
  intro hmem
  obtain ⟨d, hd, hid⟩ := List.mem_map.mp hmem
  obtain hd | hd := mem_noteAllBy hd
  · exact hnew (List.mem_map.mpr ⟨d, hd, hid⟩)
  · exact CallNode.id_notMem_callsAll hc (List.mem_map.mpr ⟨d, hd, hid⟩)

/-- A call that was not left is not among the calls before. -/
theorem Settled.notMem {c : CallNode} (h : Settled k done s) (hmiss : s.memo.lookup c.id = none) :
    c.id ∉ done.map CallNode.id := by
  intro hmem
  obtain ⟨d, hd, hid⟩ := List.mem_map.mp hmem
  have hleft := h.left d hd
  rw [hid] at hleft
  exact hleft hmiss

/-- Within a call, the call itself is the last one that was lowered. -/
theorem Settled.finish (h : Settled k done s) (hmemo : s'.memo = s.memo) (c : CallNode) :
    Entered k c.id (done ++ [c]) s' := by
  refine ⟨?_, ?_⟩
  · rw [List.forall_mem_append, List.forall_mem_singleton, hmemo]
    exact ⟨fun d hd => Or.inl (h.left d hd), Or.inr rfl⟩
  · rw [hmemo, List.map_append]
    exact fun i hi d hd => List.mem_append_left _ (h.calls i hi d hd)

/-- A call is finished after those in its arguments, if it was not among the calls before. -/
private theorem noted_finishCall {c : CallNode} {inputs : List Tensor} (hc : c.expr.In k)
    (hnew : c.id ∉ done.map CallNode.id)
    (hnoted : w.Noted m (noteAllBy CallNode.id done (Expr.callsAll c.call.args)) s n)
    (hsettled : Settled k (noteAllBy CallNode.id done (Expr.callsAll c.call.args)) s)
    (hrun : w.finishCall s c.call inputs n = (.ok (ts, s'), n')) :
    w.Noted m (noteAllBy CallNode.id done c.expr.calls) s' n' ∧
      Entered k c.id (noteAllBy CallNode.id done c.expr.calls) s' := by
  have hcalls : noteAllBy CallNode.id done c.expr.calls =
      noteAllBy CallNode.id done (Expr.callsAll c.call.args) ++ [c] := by
    rw [CallNode.expr, Expr.calls, noteAllBy_append]
    exact if_neg (id_notMem_noteAllBy hc hnew)
  obtain ⟨hnoted', hmemo⟩ := hnoted.finishCall hrun
  rw [hcalls]
  exact ⟨hnoted', hsettled.finish hmemo c⟩

/-- The calls that are noted when a visit has ended are those before and those of the expression.
Within a node, all of them were left but the node itself. -/
private theorem visitRule_noted (w : Walk σ) (k : Catalogue) (m : Machine σ) : w.VisitRule
    (fun s e n _ s' n' => e.In k → ∀ {done}, w.Noted m done s n → Settled k done s →
      w.Noted m (noteAllBy CallNode.id done e.calls) s' n' ∧
        Settled k (noteAllBy CallNode.id done e.calls) s')
    (fun s e n _ s' n' => e.In k → s.memo.lookup e.id = none →
      ∀ {done}, w.Noted m done s n → Settled k done s →
        w.Noted m (noteAllBy CallNode.id done e.calls) s' n' ∧
          Entered k e.id (noteAllBy CallNode.id done e.calls) s')
    (fun s es n _ s' n' => Expr.InAll k es → ∀ {done}, w.Noted m done s n → Settled k done s →
      w.Noted m (noteAllBy CallNode.id done (Expr.callsAll es)) s' n' ∧
        Settled k (noteAllBy CallNode.id done (Expr.callsAll es)) s') where
  hit {s e n ts} hmemo he {done} hnoted hsettled := by
    -- its calls were lowered when the node was left
    have hcalls := hsettled.calls e.id (by simp [hmemo])
    rw [he.node] at hcalls
    rw [noteAllBy_of_mem hcalls]
    exact ⟨hnoted, hsettled⟩
  leave {s s' e n n' ts} hmiss _ hnode he {done} hnoted hsettled := by
    obtain ⟨hnoted', hentered⟩ := hnode he hmiss hnoted hsettled
    refine ⟨hnoted'.of_eq rfl rfl, hentered.leave he (fun c hc => ?_) ts⟩
    exact key_mem_noteAllBy hc done
  var id _ _ _ _ _ hnoted hsettled := ⟨hnoted, hsettled.entered id⟩
  const id t _ hu _ _ _ hnoted hsettled :=
    ⟨hnoted.takesNumbers (takesNumbers_constantTensor _ t) hu, hsettled.entered id⟩
  call {s s₁ s' n n₁ n' inputs ts} id op attrs args type _ hargs hfinish he hmiss {done} hnoted
      hsettled := by
    obtain ⟨hnoted₁, hsettled₁⟩ := hargs he.2 hnoted hsettled
    let c : CallNode := ⟨id, op, attrs, args, type⟩
    have hnew : c.id ∉ done.map CallNode.id := hsettled.notMem hmiss
    exact noted_finishCall he hnew hnoted₁ hsettled₁ hfinish
  tuple id _ _ hfields he _ _ hnoted hsettled := by
    obtain ⟨hnoted₁, hsettled₁⟩ := hfields he.2 hnoted hsettled
    exact ⟨hnoted₁, hsettled₁.entered id⟩
  proj id _ _ _ hvisit _ he _ _ hnoted hsettled := by
    obtain ⟨hnoted₁, hsettled₁⟩ := hvisit he.2 hnoted hsettled
    exact ⟨hnoted₁, hsettled₁.entered id⟩
  letIn {s s₁ s' n n₁ n' us ts} id v _ _ _ hvalue _ hbody he _ _ hnoted hsettled := by
    obtain ⟨hnoted₁, hsettled₁⟩ := hvalue he.2.1 hnoted hsettled
    have hbound : w.Noted m _ (s₁.bind v us) n₁ := hnoted₁.of_eq rfl rfl
    obtain ⟨hnoted₂, hsettled₂⟩ := hbody he.2.2 hbound ⟨hsettled₁.left, hsettled₁.calls⟩
    rw [Expr.calls, noteAllBy_append]
    exact ⟨hnoted₂, hsettled₂.entered id⟩
  nil _ _ hnoted hsettled := ⟨hnoted, hsettled⟩
  cons _ _ _ hfirst _ hrest he _ hnoted hsettled := by
    obtain ⟨hnoted₁, hsettled₁⟩ := hfirst he.1 hnoted hsettled
    rw [Expr.callsAll, noteAllBy_append]
    exact hrest he.2 hnoted₁ hsettled₁

/-- **Visiting an expression lowers its calls**, those that were not lowered before, in the order of
evaluation. -/
theorem noted_visit (e : Expr) (he : e.In k) (hnoted : w.Noted m done s n)
    (hsettled : Settled k done s) (hrun : w.visit s e n = (.ok (ts, s'), n')) :
    w.Noted m (noteAllBy CallNode.id done e.calls) s' n' ∧
      Settled k (noteAllBy CallNode.id done e.calls) s' :=
  (visitRule_noted w k m).visit hrun he hnoted hsettled

end

/-- **Every call is lowered once, in the order of evaluation.** If lowering a function ends with a
value, the operators that were noted are those of its calls, each listed once, where the call is met
for the first time. For values, what was chosen is what lowering these calls one after the other
resulted in; for shapes, their shape functions were called one after the other. Nothing else was
done but to take numbers from the supply. -/
theorem lower_inOrder (w : Walk σ) {f : Function} {m n : Machine σ} {l : Lowered}
    (hf : f.Coherent) (h : w.lower f m = (.ok l, n)) :
    (f.callNodes.map CallNode.id).Nodup ∧ (∀ c, c ∈ f.callNodes ↔ c.expr.Within f.body) ∧
      l.ops = f.callNodes.map (fun c => c.call.op) ∧
      (w.aspect = .values → InOrder w.LowersCall m f.callNodes l.calls n) ∧
      (w.aspect = .shapes → ∃ outputs, InOrder w.CallsShapeFunction m f.callNodes outputs n) := by
  refine ⟨f.nodup_callNodes, fun c => f.mem_callNodes_iff hf, ?_⟩
  obtain ⟨k, hk⟩ := hf
  obtain ⟨⟨inputs, s⟩, m₁, hparams, hafter⟩ := bind_eq_ok_iff.mp h
  obtain ⟨⟨outputs, s'⟩, m₂, hvisit, hend⟩ := bind_eq_ok_iff.mp hafter
  obtain ⟨rfl, rfl⟩ := pure_eq_ok_iff.mp hend
  obtain ⟨hmemo, hcalls, hops⟩ := bindParams_memo hparams
  have hstart : w.Noted m [] .start m :=
    ⟨rfl, fun _ => .start, fun _ => ⟨[], .start⟩⟩
  have hnoted : w.Noted m [] s m₁ :=
    (hstart.takesNumbers (w.takesNumbers_bindParams f.params .start) hparams).of_eq hcalls hops
  have hsettled : Settled k [] s := by
    refine ⟨fun c hc => absurd hc List.not_mem_nil, fun i hi => ?_⟩
    rw [hmemo] at hi
    exact absurd rfl hi
  obtain ⟨hresult, -⟩ := noted_visit f.body hk hnoted hsettled hvisit
  exact ⟨hresult.ops, hresult.values, hresult.shapes⟩

end Walk

/-! ### An example -/

/-- Whether an action ended with a value. -/
def Outcome.isOk : Outcome α → Bool
  | .ok _ => true
  | .fault _ | .panic | .stalled => false

/-- What ends well has a result. -/
theorem Outcome.exists_of_isOk {r : Outcome α × Machine σ} (h : r.1.isOk = true) :
    ∃ a n, r = (.ok a, n) := by
  obtain ⟨o, n⟩ := r
  cases o with
  | ok a => exact ⟨a, n, rfl⟩
  | fault | panic | stalled => cases h

/-- Collaborators that keep a log of the operators that were computed. -/
def Collaborators.logging : Collaborators (List String) where
  strategy? _ op := some fun _ _ _ _ => return ⟨[⟨none, [⟨op, 10, fun _ _ type m =>
    (.ok (type.leaves.map fun t => .placeholder 0 op t.shape t.dtype),
      { m with own := m.own ++ [op] })⟩]⟩]⟩
  shapeFunction? _ op := some fun _ _ ranks m =>
    (.ok (ranks.map fun r => .placeholder 0 op (shapeExtent r) .int64),
      { m with own := m.own ++ [op] })
  build a := return .ofArtifact 0 a

/-- The two calls of a definition that stands in two scopes are lowered once. Lowering shapes, the
log holds each of them once. -/
theorem Walk.lower_inOrder_shared :
    let type : Ty := .tensor ⟨[.imm 2 .int64], .float 32⟩
    let f := Function.twoScopes ⟨0, "x", type⟩ ⟨1, "y", type⟩ ⟨2, "z", type⟩
    let w (a : Aspect) : Walk (List String) := ⟨.logging, ⟨.llvm, .empty⟩, false, a⟩
    let m : Machine (List String) := .initial [] 4
    f.body.calls.map CallNode.id = [2, 3, 2, 3] ∧ f.callNodes.map CallNode.id = [2, 3] ∧
      (∃ l n, (w .values).lower f m = (.ok l, n) ∧ l.ops = ["relu", "add"] ∧
        l.calls.length = 2) ∧
      ∃ l n, (w .shapes).lower f m = (.ok l, n) ∧ l.ops = ["relu", "add"] ∧
        n.own = ["relu", "add"] := by
  intro type f w m
  have hf : f.Coherent := Function.twoScopes_coherent _ _ _
  have hops : f.callNodes.map (fun c => c.call.op) = ["relu", "add"] := rfl
  refine ⟨rfl, rfl, ?_, ?_⟩
  · have hok : ((w .values).lower f m).1.isOk = true := by decide +kernel
    obtain ⟨l, n, h⟩ := Outcome.exists_of_isOk hok
    obtain ⟨-, -, hnoted, hcalls, -⟩ := (w .values).lower_inOrder hf h
    exact ⟨l, n, h, hnoted.trans hops, (hcalls rfl).length_eq⟩
  · have hok : ((w .shapes).lower f m).1.isOk = true := by decide +kernel
    obtain ⟨l, n, h⟩ := Outcome.exists_of_isOk hok
    obtain ⟨-, -, hnoted, -, hshapes⟩ := (w .shapes).lower_inOrder hf h
    obtain ⟨outputs, houtputs⟩ := hshapes rfl
    have hstep (call : Call) (inputs : List Tensor) (n : Machine (List String))
        (us : List Tensor) (n' : Machine (List String))
        (h : (w .shapes).CallsShapeFunction call inputs n us n') :
        n'.own = n.own ++ [call.op] := by
      obtain ⟨shapeFunction, hfound, hcall⟩ := h
      obtain rfl := Option.some.inj hfound
      obtain ⟨-, rfl⟩ := Prod.mk.inj hcall
      rfl
    exact ⟨l, n, h, hnoted.trans hops,
      (houtputs.log_eq Machine.own Call.op (fun _ _ => rfl) hstep).trans hops⟩

end TensorLowering
