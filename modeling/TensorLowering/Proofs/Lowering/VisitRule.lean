import TensorLowering.Proofs.Lowering.Mirror

/-!
# How a visit ends

A visit of an expression ends with tensors in two ways: they were kept for the node, or the node is
lowered now and they are kept from now on. For each kind of node there is one way to lower it. A
statement that is true in each of these ways is true of all visits that end well
(`Walk.VisitRule.visit`). The rule asks three statements at once: of a visit, of visits from left to
right, and of the time within a node, when its parts were visited but it is not kept yet.
-/

namespace TensorLowering

open TensorLowering.Action

variable {σ α β : Type}

namespace Action

/-- To return a value does nothing else. -/
theorem pure_eq_ok_iff {a b : α} {m n : Machine σ} :
    (pure a : Action σ α) m = (.ok b, n) ↔ a = b ∧ m = n := by
  change (Outcome.ok a, m) = (Outcome.ok b, n) ↔ a = b ∧ m = n
  simp

/-- The same for a pair. -/
theorem pure_pair_eq_ok_iff {a a' : α} {b b' : β} {m n : Machine σ} :
    (pure (a, b) : Action σ (α × β)) m = (.ok (a', b'), n) ↔ a = a' ∧ b = b' ∧ m = n := by
  rw [pure_eq_ok_iff, Prod.mk.injEq, and_assoc]

end Action

namespace Walk

/-- A statement about visits: the progress, the machine and what is visited at the beginning, the
tensors, and the progress and the machine in the end. -/
abbrev VisitProperty (σ : Type) (α : Type) : Type :=
  Progress → α → Machine σ → List Tensor → Progress → Machine σ → Prop

/-- What has to be shown of visits that end well (`P`), of those of several expressions (`Q`), and
of nodes that are lowered now (`N`). -/
structure VisitRule (w : Walk σ) (P N : VisitProperty σ Expr) (Q : VisitProperty σ (List Expr)) :
    Prop where
  hit : ∀ {s : Progress} {e : Expr} {n : Machine σ} {ts : List Tensor},
    s.memo.lookup e.id = some ts → P s e n ts s n
  leave : ∀ {s s' : Progress} {e : Expr} {n n' : Machine σ} {ts : List Tensor},
    s.memo.lookup e.id = none → w.visit s e n = (.ok (ts, s'.remember e.id ts), n') →
    N s e n ts s' n' → P s e n ts (s'.remember e.id ts) n'
  var : ∀ {s : Progress} {n : Machine σ} {ts : List Tensor} (id : Nat) (v : Var),
    s.bound.lookup v.id = some ts → N s (.var id v) n ts s n
  const : ∀ {s : Progress} {n n' : Machine σ} {u : Tensor} (id : Nat) (t : TensorType)
    (data : List UInt8), constantTensor w.aspect t n = (.ok u, n') →
    N s (.const id t data) n [u] s n'
  call : ∀ {s s₁ s' : Progress} {n n₁ n' : Machine σ} {inputs ts : List Tensor} (id : Nat)
    (op : String) (attrs : Attrs) (args : List Expr) (type : Ty),
    w.visitAll s args n = (.ok (inputs, s₁), n₁) → Q s args n inputs s₁ n₁ →
    w.finishCall s₁ ⟨op, attrs, args, type⟩ inputs n₁ = (.ok (ts, s'), n') →
    N s (.call id op attrs args type) n ts s' n'
  tuple : ∀ {s s' : Progress} {n n' : Machine σ} {ts : List Tensor} (id : Nat)
    (fields : List Expr), w.visitAll s fields n = (.ok (ts, s'), n') → Q s fields n ts s' n' →
    N s (.tuple id fields) n ts s' n'
  proj : ∀ {s s' : Progress} {n n' : Machine σ} {us ts : List Tensor} (id i : Nat) (e : Expr),
    w.visit s e n = (.ok (us, s'), n') → P s e n us s' n' →
    projectTensors e.type us i = .ok ts → N s (.proj id e i) n ts s' n'
  letIn : ∀ {s s₁ s' : Progress} {n n₁ n' : Machine σ} {us ts : List Tensor} (id : Nat) (v : Var)
    (value body : Expr), w.visit s value n = (.ok (us, s₁), n₁) → P s value n us s₁ n₁ →
    w.visit (s₁.bind v us) body n₁ = (.ok (ts, s'), n') → P (s₁.bind v us) body n₁ ts s' n' →
    N s (.letIn id v value body) n ts s' n'
  nil : ∀ {s : Progress} {n : Machine σ}, Q s [] n [] s n
  cons : ∀ {s s₁ s' : Progress} {n n₁ n' : Machine σ} {ts us : List Tensor} (e : Expr)
    (es : List Expr), w.visit s e n = (.ok (ts, s₁), n₁) → P s e n ts s₁ n₁ →
    w.visitAll s₁ es n₁ = (.ok (us, s'), n') → Q s₁ es n₁ us s' n' →
    Q s (e :: es) n (ts ++ us) s' n'

namespace VisitRule

variable {w : Walk σ} {P N : VisitProperty σ Expr} {Q : VisitProperty σ (List Expr)}
  {s s' : Progress} {n n' : Machine σ} {ts : List Tensor} {e : Expr}

/-- A visit ends well with what was kept, or with what the node is lowered to now. -/
theorem meet (h : w.VisitRule P N Q) (hrun : w.visit s e n = (.ok (ts, s'), n'))
    (hnode : ∀ {s₁}, w.lowerNode s e n = (.ok (ts, s₁), n') → N s e n ts s₁ n') :
    P s e n ts s' n' := by
  cases hmemo : s.memo.lookup e.id with
  | some us =>
    rw [w.visit_of_lookup hmemo] at hrun
    obtain ⟨rfl, rfl, rfl⟩ := pure_pair_eq_ok_iff.mp hrun
    exact h.hit hmemo
  | none =>
    have hvisit := hrun
    rw [w.visit_of_lookup_none hmemo] at hrun
    obtain ⟨⟨us, s₁⟩, n₁, hlower, hend⟩ := bind_eq_ok_iff.mp hrun
    obtain ⟨rfl, rfl, rfl⟩ := pure_pair_eq_ok_iff.mp hend
    exact h.leave hmemo hvisit (hnode hlower)

mutual

/-- The rule holds of nodes that are lowered now. -/
theorem lowerNode (h : w.VisitRule P N Q) : (e : Expr) → ∀ {s s' : Progress} {n n' : Machine σ}
    {ts : List Tensor}, w.lowerNode s e n = (.ok (ts, s'), n') → N s e n ts s' n'
  | .var id v, s, s', n, n', ts, hnode => by
    cases hlookup : s.bound.lookup v.id with
    | some us =>
      simp only [Walk.lowerNode, hlookup] at hnode
      obtain ⟨rfl, rfl, rfl⟩ := pure_pair_eq_ok_iff.mp hnode
      exact h.var id v hlookup
    | none =>
      simp only [Walk.lowerNode, hlookup] at hnode
      cases hnode
  | .const id t data, s, s', n, n', ts, hnode => by
    obtain ⟨u, n₁, hu, hend⟩ := bind_eq_ok_iff.mp hnode
    obtain ⟨rfl, rfl, rfl⟩ := pure_pair_eq_ok_iff.mp hend
    exact h.const id t data hu
  | .call id op attrs args type, s, s', n, n', ts, hnode => by
    obtain ⟨⟨inputs, s₂⟩, n₂, hargs, hfinish⟩ := bind_eq_ok_iff.mp hnode
    exact h.call id op attrs args type hargs (visitAll h args hargs) hfinish
  | .tuple id fields, s, s', n, n', ts, hnode => h.tuple id fields hnode (visitAll h fields hnode)
  | .proj id e i, s, s', n, n', ts, hnode => by
    obtain ⟨⟨us, s₂⟩, n₂, hvisit, hend⟩ := bind_eq_ok_iff.mp hnode
    dsimp only at hend
    cases hproject : projectTensors e.type us i with
    | ok field =>
      rw [hproject] at hend
      obtain ⟨rfl, rfl, rfl⟩ := pure_pair_eq_ok_iff.mp hend
      exact h.proj id i e hvisit (h.meet hvisit (lowerNode h e)) hproject
    | error why =>
      rw [hproject] at hend
      cases hend
  | .letIn id v value body, s, s', n, n', ts, hnode => by
    obtain ⟨⟨us, s₂⟩, n₂, hvalue, hbody⟩ := bind_eq_ok_iff.mp hnode
    exact h.letIn id v value body hvalue (h.meet hvalue (lowerNode h value)) hbody
      (h.meet hbody (lowerNode h body))

/-- **The rule holds of visits of several expressions that end well.** -/
theorem visitAll (h : w.VisitRule P N Q) : (es : List Expr) → ∀ {s s' : Progress}
    {n n' : Machine σ} {ts : List Tensor}, w.visitAll s es n = (.ok (ts, s'), n') →
    Q s es n ts s' n'
  | [], s, s', n, n', ts, hrun => by
    obtain ⟨rfl, rfl, rfl⟩ := pure_pair_eq_ok_iff.mp hrun
    exact h.nil
  | e :: es, s, s', n, n', ts, hrun => by
    obtain ⟨⟨us, s₁⟩, n₁, hfirst, hafter⟩ := bind_eq_ok_iff.mp hrun
    obtain ⟨⟨rest, s₂⟩, n₂, hrest, hend⟩ := bind_eq_ok_iff.mp hafter
    obtain ⟨rfl, rfl, rfl⟩ := pure_pair_eq_ok_iff.mp hend
    exact h.cons e es hfirst (h.meet hfirst (lowerNode h e)) hrest (visitAll h es hrest)

end

/-- **The rule holds of visits that end well.** -/
theorem visit (h : w.VisitRule P N Q) (hrun : w.visit s e n = (.ok (ts, s'), n')) :
    P s e n ts s' n' :=
  h.meet hrun (h.lowerNode e)

end VisitRule

/-- Finishing a call, nothing is kept or bound. -/
theorem finishCall_tables {w : Walk σ} {s s' : Progress} {n n' : Machine σ} {call : Call}
    {inputs ts : List Tensor} (h : w.finishCall s call inputs n = (.ok (ts, s'), n')) :
    s'.memo = s.memo ∧ s'.bound = s.bound := by
  cases haspect : w.aspect with
  | values | shapes =>
    simp only [finishCall, haspect] at h
    obtain ⟨_, _, -, hend⟩ := bind_eq_ok_iff.mp h
    obtain ⟨-, rfl, -⟩ := pure_pair_eq_ok_iff.mp hend
    exact ⟨rfl, rfl⟩

end Walk

end TensorLowering
