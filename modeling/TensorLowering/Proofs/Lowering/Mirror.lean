import TensorLowering.Proofs.Lowering.Abreast
import TensorLowering.Proofs.Lowering.Reuse

/-!
# The walk mirrors the recursion

The walk that lowers a function lowers every node once and has one table of variables, which only
grows. With pure collaborators it mirrors the recursion over the tree that the graph stands for
(`sideBySide_visit`).

The tensors that the walk keeps for a node can be used again (`Recalls`), and what it has noted is
what the first copies of the calls were lowered to (`Accounts`). Since binders are distinct and
nothing occurs outside its scope, the table of variables says the same as the environment about all
variables that are used (`Sees`), though it also holds variables of definitions that were left. A
node is entered before its parts and left after them, so no variable is bound twice and no call is
noted twice.
-/

namespace TensorLowering

open Encoding Setting

variable {σ : Type}

/-! ### Nodes that were not lowered before -/

namespace Walk

/-- Lower a node that was not lowered before. -/
def lowerNode (w : Walk σ) (s : Progress) : Expr → Action σ (List Tensor × Progress)
  | .var _ v =>
    match s.bound.lookup v.id with
    | some ts => return (ts, s)
    | none => Action.fail (.unsupported (.freeVariable v.name))
  | .const _ t _ => do
    let t ← constantTensor w.aspect t
    return ([t], s)
  | .call _ op attrs args type => do
    let (inputs, s) ← w.visitAll s args
    w.finishCall s ⟨op, attrs, args, type⟩ inputs
  | .tuple _ fields => w.visitAll s fields
  | .proj _ tuple index => do
    let (ts, s) ← w.visit s tuple
    match projectTensors tuple.type ts index with
    | .ok ts => return (ts, s)
    | .error why => Action.fail (.unsupported why)
  | .letIn _ v value body => do
    let (ts, s) ← w.visit s value
    w.visit (s.bind v ts) body

/-- The tensors of the node are kept when it is left. -/
theorem visit_of_lookup_none (w : Walk σ) {s : Progress} {e : Expr}
    (h : s.memo.lookup e.id = none) :
    w.visit s e = w.lowerNode s e >>= fun r => pure (r.1, r.2.remember e.id r.1) := by
  rw [visit.eq_def, h]
  -- in each case keeping the tensors is the last thing done, if it is not a fault
  cases e with
  | var id v =>
    unfold lowerNode
    dsimp only
    cases s.bound.lookup v.id with
    | some ts => rfl
    | none => rfl
  | const id t data =>
    unfold lowerNode
    rw [bind_assoc]
    rfl
  | call id op attrs args type =>
    unfold lowerNode
    rw [bind_assoc]
    rfl
  | tuple id fields => rfl
  | proj id tuple index =>
    unfold lowerNode
    rw [bind_assoc]
    dsimp only
    congr 1
    funext r
    cases projectTensors tuple.type r.1 index with
    | ok ts => rfl
    | error why => rfl
  | letIn id v value body =>
    unfold lowerNode
    rw [bind_assoc]
    rfl

end Walk

/-! ### What is known of variables -/

/-- The table of the walk and the environment of the recursion say the same about the variables
that are used. The environment holds parameters, and variables of definitions on the path. -/
structure Sees (d : Subject) (w : Correspondence) (path : List Nat)
    (table env : List (Nat × List Tensor)) (used : Nat → Prop) : Prop where
  same : ∀ x, used x → Option.Rel w.SameAll (table.lookup x) (env.lookup x)
  inScope : ∀ x, used x → d.function.Binds x → table.lookup x ≠ none
  opened : ∀ x, env.lookup x ≠ none →
    x ∈ d.function.paramIds ∨ ∃ i ∈ path, (i, x) ∈ d.function.body.lets

/-- The tensors that were kept can be used again. No node of the path was left. -/
structure Recalls (d : Subject) (v : Walk σ) (k : Setting σ) (old : Nat) (w : Correspondence)
    (path : List Nat) (first : List CallCopy) (s : Progress) : Prop where
  entered : ∀ i ∈ path, s.memo.lookup i = none
  kept : ∀ i ts, s.memo.lookup i = some ts →
    Reusable v k old d.function s.bound first w (d.nodes.node i) ts

/-- What was bound and noted is accounted for: variables by the environment or by definitions that
were left, what was chosen for calls by their first copies. -/
structure Accounts (d : Subject) (old : Nat) (w : Correspondence)
    (env : List (Nat × List Tensor)) (first : List CallCopy) (s : Progress) : Prop where
  bound : ∀ x, s.bound.lookup x ≠ none → env.lookup x ≠ none ∨
    ∃ i, (i, x) ∈ d.function.body.lets ∧ s.memo.lookup i ≠ none
  noted : ∀ c ∈ first, s.memo.lookup c.node ≠ none
  calls : List.Forall₂ (LoweredCall.Looks old w.left.params w.right.params) s.calls.reverse
    (first.flatMap CallCopy.calls)
  ops : s.ops.reverse = first.flatMap CallCopy.ops

section

variable {d : Subject} {v : Walk σ} {k : Setting σ} {old : Nat} {w w' : Correspondence}
  {path : List Nat} {table table' env : List (Nat × List Tensor)} {used used' : Nat → Prop}
  {first first' : List CallCopy} {s : Progress} {e : Expr} {ts us : List Tensor}

namespace Sees

/-- Fewer variables may be used. -/
theorem imp (h : Sees d w path table env used) (hused : ∀ x, used' x → used x) :
    Sees d w path table env used' :=
  ⟨fun x hx => h.same x (hused x hx), fun x hx => h.inScope x (hused x hx), h.opened⟩

private theorem enter (h : Sees d w path table env used) (id : Nat) :
    Sees d w (id :: path) table env used := by
  refine ⟨h.same, h.inScope, fun x hx => ?_⟩
  obtain hx | ⟨i, hi, hx⟩ := h.opened x hx
  · exact Or.inl hx
  · exact Or.inr ⟨i, List.mem_cons_of_mem id hi, hx⟩

private theorem later (h : Sees d w path table env used) (hw : w.Grows w')
    (htable : Widens d.function table table') : Sees d w' path table' env used := by
  have hlookup (x : Nat) (hx : used x) : table'.lookup x = table.lookup x :=
    htable.lookup_eq (h.inScope x hx)
  refine ⟨fun x hx => ?_, fun x hx => ?_, h.opened⟩
  · rw [hlookup x hx]
    exact Walk.optionRel_mono hw (h.same x hx)
  · rw [hlookup x hx]
    exact h.inScope x hx

/-- A variable is bound on both sides, by a definition on the path. -/
theorem bind (h : Sees d w path table env used) {id x : Nat} (hid : id ∈ path)
    (hlet : (id, x) ∈ d.function.body.lets) (hused : ∀ y, used' y → y ≠ x → used y)
    (hts : w.SameAll ts us) : Sees d w path ((x, ts) :: table) ((x, us) :: env) used' := by
  refine ⟨fun y hy => ?_, fun y hy hbinds => ?_, fun y hy => ?_⟩
  · exact Walk.optionRel_lookup_cons hts fun hne => h.same y (hused y hy hne)
  · rw [lookup_cons_ite]
    split
    · exact Option.some_ne_none ts
    · next hne => exact h.inScope y (hused y hy hne) hbinds
  · rw [lookup_cons_ite] at hy
    split at hy
    · next hyx => exact Or.inr ⟨id, hid, hyx ▸ hlet⟩
    · exact h.opened y hy

end Sees

namespace Recalls

private theorem later (h : Recalls d v k old w path first s) (hw : w.Grows w')
    (hfirst : first ⊆ first') : Recalls d v k old w' path first' s :=
  ⟨h.entered, fun i ts hi => (h.kept i ts hi).later hw (Widens.refl s.bound) hfirst⟩

private theorem enter (h : Recalls d v k old w path first s) (hmiss : s.memo.lookup e.id = none) :
    Recalls d v k old w (e.id :: path) first s :=
  ⟨List.forall_mem_cons.mpr ⟨hmiss, h.entered⟩, h.kept⟩

/-- What is recalled stays so when a new variable is bound. -/
theorem bind (h : Recalls d v k old w path first s) {x : Var} (hx : s.bound.lookup x.id = none)
    (hbinds : d.function.Binds x.id) (ts : List Tensor) :
    Recalls d v k old w path first (s.bind x ts) :=
  ⟨h.entered, fun i us hi => (h.kept i us hi).later (Correspondence.Grows.refl w)
    (Widens.cons hx hbinds ts) (List.Subset.refl first)⟩

/-- The node that was entered last is left, with tensors that can be used again. -/
private theorem leave (h : Recalls d v k old w (e.id :: path) first s) (hp : d.Place path e)
    (he : Reusable v k old d.function s.bound first w e ts) :
    Recalls d v k old w path first (s.remember e.id ts) := by
  constructor
  · -- the other nodes of the path are larger, so none of them is left as well
    intro i hi
    have hne : i ≠ e.id := ne_of_mem_of_not_mem hi hp.notMem
    rw [Progress.lookup_remember, if_neg hne]
    exact h.entered i (List.mem_cons_of_mem _ hi)
  · intro i us hi
    rw [Progress.lookup_remember] at hi
    split at hi
    · next hid =>
      obtain rfl := Option.some.inj hi
      rw [hid, hp.node]
      exact he
    · exact h.kept i us hi

end Recalls

private theorem Progress.lookup_remember_ne_none {id i : Nat} (h : s.memo.lookup i ≠ none) :
    (s.remember id ts).memo.lookup i ≠ none := by
  rw [Progress.lookup_remember]
  split
  · exact Option.some_ne_none ts
  · exact h

namespace Accounts

private theorem later (h : Accounts d old w env first s) (hw : w.Grows w') :
    Accounts d old w' env first s := by
  refine ⟨h.bound, h.noted, ?_, h.ops⟩
  rw [hw.left.params, hw.right.params]
  exact h.calls

private theorem remember (h : Accounts d old w env first s) (id : Nat) (ts : List Tensor) :
    Accounts d old w env first (s.remember id ts) := by
  refine ⟨fun x hx => ?_, fun c hc => ?_, h.calls, h.ops⟩
  · obtain hx | ⟨i, hi, hne⟩ := h.bound x hx
    · exact Or.inl hx
    · exact Or.inr ⟨i, hi, Progress.lookup_remember_ne_none hne⟩
  · exact Progress.lookup_remember_ne_none (h.noted c hc)

/-- The accounts stay in order when a variable is bound on both sides. -/
theorem bind (h : Accounts d old w env first s) (x : Var) (ts us : List Tensor) :
    Accounts d old w ((x.id, us) :: env) first (s.bind x ts) := by
  refine ⟨fun y hy => ?_, h.noted, h.calls, h.ops⟩
  rw [Progress.lookup_bind] at hy
  rw [lookup_cons_ite]
  split
  · exact Or.inl (Option.some_ne_none us)
  · next hne =>
    rw [if_neg hne] at hy
    exact h.bound y hy

/-- A definition is left, which from then on accounts for its variable. -/
private theorem close {x : Var} (h : Accounts d old w ((x.id, us) :: env) first s) {id : Nat}
    (hlet : (id, x.id) ∈ d.function.body.lets) (ts : List Tensor) :
    Accounts d old w env first (s.remember id ts) := by
  have hafter := h.remember id ts
  refine ⟨fun y hy => ?_, hafter.noted, hafter.calls, hafter.ops⟩
  obtain hy | hy := hafter.bound y hy
  · rw [lookup_cons_ite] at hy
    split at hy
    · next hyx =>
      refine Or.inr ⟨id, hyx ▸ hlet, ?_⟩
      rw [Progress.lookup_remember, if_pos rfl]
      exact Option.some_ne_none ts
    · exact Or.inl hy
  · exact Or.inr hy

private theorem noteCopy_eq (h : Accounts d old w env first s) {c : CallCopy}
    (hmiss : s.memo.lookup c.node = none) : noteCopy first c = first ++ [c] := by
  refine if_neg fun hmem => ?_
  obtain ⟨c', hc', hnode⟩ := List.mem_map.mp hmem
  have hnoted := h.noted c' hc'
  rw [hnode] at hnoted
  exact hnoted hmiss

/-- A copy of a call is noted for which none was before. -/
theorem log (h : Accounts d old w env first s) {c c' : CallCopy}
    (hlooks : c.Looks old w.left.params w.right.params c') (hmiss : s.memo.lookup c'.node = none)
    (ts : List Tensor) :
    Accounts d old w env (noteCopy first c') ((s.log c).remember c'.node ts) := by
  have hafter := h.remember c'.node ts
  rw [h.noteCopy_eq hmiss]
  refine ⟨hafter.bound, ?_, ?_, ?_⟩
  · rw [List.forall_mem_append, List.forall_mem_singleton]
    refine ⟨hafter.noted, ?_⟩
    rw [Progress.lookup_remember, if_pos rfl]
    exact Option.some_ne_none ts
  · change List.Forall₂ _ (c.calls.reverse ++ s.calls).reverse _
    rw [List.reverse_append, List.reverse_reverse, List.flatMap_append, List.flatMap_singleton]
    exact List.rel_append h.calls hlooks.calls
  · change (c.ops.reverse ++ s.ops).reverse = _
    rw [List.reverse_append, List.reverse_reverse, List.flatMap_append, List.flatMap_singleton,
      h.ops, hlooks.ops]

/-- The variable of a definition that is entered is not bound yet. -/
private theorem lookup_eq_none (h : Accounts d old w env first s)
    (hsees : Sees d w' path table env used) {id x : Nat} (hlet : (id, x) ∈ d.function.body.lets)
    (hpath : id ∉ path) (hmiss : s.memo.lookup id = none) : s.bound.lookup x = none := by
  by_contra hne
  -- only this definition binds it, and it was neither entered before nor left
  obtain hx | ⟨i, hi, hleft⟩ := h.bound x hne
  · obtain hparam | ⟨i, hi, hx⟩ := hsees.opened x hx
    · exact d.distinct.params_lets id x hlet hparam
    · obtain rfl := d.distinct.lets i id x hx hlet
      exact hpath hi
  · obtain rfl := d.distinct.lets i id x hi hlet
    exact hleft hmiss

end Accounts

/-! ### Visits -/

/-- What is found by lowering a node of the graph and by expanding a copy of it, where certain
copies of calls were noted and the table of variables was that of `s`. -/
structure Found (d : Subject) (v : Walk σ) (k : Setting σ) (old : Nat) (path : List Nat)
    (first : List CallCopy) (s : Progress) (w : Correspondence) (r : List Tensor × Progress)
    (r' : List Tensor × List CallCopy) : Prop where
  same : w.SameAll r.1 r'.1
  recalls : Recalls d v k old w path (r'.2.foldl noteCopy first) r.2
  widens : Widens d.function s.bound r.2.bound
  copies : ∀ c ∈ r'.2, c.IsNoted old w.right.params (r'.2.foldl noteCopy first)

/-- What a visit and an expansion end with. -/
structure Mirrored (d : Subject) (v : Walk σ) (k : Setting σ) (old : Nat) (path : List Nat)
    (env : List (Nat × List Tensor)) (first : List CallCopy) (s : Progress) (w : Correspondence)
    (r : List Tensor × Progress) (r' : List Tensor × List CallCopy) : Prop
    extends Found d v k old path first s w r r' where
  accounts : Accounts d old w env (r'.2.foldl noteCopy first) r.2

/-- What they end with inside of a node, which will be left next. -/
structure Inside (d : Subject) (v : Walk σ) (k : Setting σ) (old : Nat) (path : List Nat)
    (env : List (Nat × List Tensor)) (first : List CallCopy) (s : Progress) (id : Nat)
    (w : Correspondence) (r : List Tensor × Progress) (r' : List Tensor × List CallCopy) : Prop
    extends Found d v k old (id :: path) first s w r r' where
  accounts : Accounts d old w env (r'.2.foldl noteCopy first) (r.2.remember id r.1)

private theorem Mirrored.inside {id : Nat} {r : List Tensor × Progress}
    {r' : List Tensor × List CallCopy} (h : Mirrored d v k old (id :: path) env first s w r r') :
    Inside d v k old path env first s id w r r' :=
  ⟨h.toFound, h.accounts.remember id r.1⟩

/-- Tensors that were kept are as good as another expansion, which notes no call. -/
private theorem sideBySide_hit (hp : d.Place path e) (hw : w.Fixed old)
    (hrecalls : Recalls d v k old w path first s) (haccounts : Accounts d old w env first s)
    (hsees : Sees d w path s.bound env e.Uses) (hhit : s.memo.lookup e.id = some ts) :
    k.SideBySideIn (Correspondence.Fixed old) w (Mirrored d v k old path env first s)
      (v.visit s e) (v.expand env e) := by
  have hkept := hrecalls.kept e.id ts hhit
  rw [hp.node] at hkept
  have hagain := hkept.again w env (Correspondence.Grows.refl w) hw hsees.same
  rw [v.visit_of_lookup hhit]
  refine hagain.map_left (fun ts => (ts, s)) fun w' us r hw' hr => ?_
  obtain ⟨hfixed, hsame, hnoted⟩ := hr
  have hfirst : r.2.foldl noteCopy first = first := by
    refine foldl_noteCopy_of_mem fun c hc => ?_
    obtain ⟨c', hc', hlooks⟩ := hnoted c hc
    exact List.mem_map.mpr ⟨c', hc', hlooks.node⟩
  refine ⟨hfixed, ⟨hsame, ?_, Widens.refl s.bound, ?_⟩, ?_⟩
  · rw [hfirst]
    exact hrecalls.later hw' (List.Subset.refl first)
  · rw [hfirst]
    exact hnoted
  · rw [hfirst]
    exact haccounts.later hw'

/-- A node is left, and what was found inside of it can be used again from now on. -/
private theorem sideBySide_leave (hv : v.collaborators.Pure k old) (hknown : d.function.Known)
    (hbelow : d.function.Below old) (hp : d.Place path e) (hw : w.Fixed old)
    (hsees : Sees d w path s.bound env e.Uses) (hmiss : s.memo.lookup e.id = none)
    (h : k.SideBySideIn (Correspondence.Fixed old) w (Inside d v k old path env first s e.id)
      (v.lowerNode s e) (v.expand env e)) :
    k.SideBySideIn (Correspondence.Fixed old) w (Mirrored d v k old path env first s)
      (v.visit s e) (v.expand env e) := by
  rw [v.visit_of_lookup_none hmiss]
  refine h.ran.map_left (fun r => (r.1, r.2.remember e.id r.1)) fun w' r r' hw' hr => ?_
  obtain ⟨⟨hfixed, hinside⟩, m, n, hm, hrun⟩ := hr
  have hreusable : Reusable v k old d.function s.bound (r'.2.foldl noteCopy first) w' e r.1 :=
    Reusable.of_run hv hknown hbelow hp.within hw hsees.inScope hsees.same hm hrun hw' hfixed
      hinside.same hinside.copies
  refine ⟨hfixed, ⟨hinside.same, ?_, hinside.widens, hinside.copies⟩, hinside.accounts⟩
  refine hinside.recalls.leave hp (hreusable.later (Correspondence.Grows.refl w') ?_ ?_)
  · exact hinside.widens
  · exact List.Subset.refl _

/-- A node is met: it was lowered before, or it is entered and left. -/
private theorem sideBySide_meet (hv : v.collaborators.Pure k old) (hknown : d.function.Known)
    (hbelow : d.function.Below old) (hp : d.Place path e) (hw : w.Fixed old)
    (hrecalls : Recalls d v k old w path first s) (haccounts : Accounts d old w env first s)
    (hsees : Sees d w path s.bound env e.Uses)
    (h : Recalls d v k old w (e.id :: path) first s →
      k.SideBySideIn (Correspondence.Fixed old) w (Inside d v k old path env first s e.id)
        (v.lowerNode s e) (v.expand env e)) :
    k.SideBySideIn (Correspondence.Fixed old) w (Mirrored d v k old path env first s)
      (v.visit s e) (v.expand env e) := by
  cases hmemo : s.memo.lookup e.id with
  | some ts => exact sideBySide_hit hp hw hrecalls haccounts hsees hmemo
  | none => exact sideBySide_leave hv hknown hbelow hp hw hsees hmemo (h (hrecalls.enter hmemo))

/-- What is found for two things in a row; between them, variables may be bound. -/
theorem Found.append {path' : List Nat} {r q : List Tensor × Progress}
    {r' q' : List Tensor × List CallCopy} {s' : Progress}
    (h : Found d v k old path first s w r r') (hw : w.Grows w')
    (hs : Widens d.function r.2.bound s'.bound)
    (h' : Found d v k old path' (r'.2.foldl noteCopy first) s' w' q q') (hsame : w'.SameAll ts us) :
    Found d v k old path' first s w' (ts, q.2) (us, r'.2 ++ q'.2) := by
  refine ⟨hsame, ?_, h.widens.trans (hs.trans h'.widens), ?_⟩
  · rw [List.foldl_append]
    exact h'.recalls
  · rw [List.foldl_append, List.forall_mem_append]
    refine ⟨fun c hc => ?_, h'.copies⟩
    rw [hw.right.params]
    exact (h.copies c hc).mono (subset_foldl_noteCopy q'.2 _)

/-- A variable has the same tensors on both sides. -/
private theorem sideBySide_var {id : Nat} {x : Var} (hw : w.Fixed old)
    (hrecalls : Recalls d v k old w (id :: path) first s) (haccounts : Accounts d old w env first s)
    (hsees : Sees d w path s.bound env (Expr.var id x).Uses) :
    k.SideBySideIn (Correspondence.Fixed old) w (Inside d v k old path env first s id)
      (v.lowerNode s (.var id x)) (v.expand env (.var id x)) := by
  have hx := hsees.same x.id rfl
  unfold Walk.lowerNode Walk.expand
  dsimp only
  generalize hbound : s.bound.lookup x.id = o at hx
  generalize env.lookup x.id = o' at hx
  cases hx with
  | none => exact .fail _
  | @some ts us hts =>
    refine .pure ⟨hw, ⟨hts, hrecalls, Widens.refl s.bound, ?_⟩, haccounts.remember id ts⟩
    exact fun c hc => absurd hc List.not_mem_nil

private theorem sideBySide_const {id : Nat} {t : TensorType} {data : List UInt8} (hw : w.Fixed old)
    (hknown : t.hasUnknown = false) (hbelow : t.Below old)
    (hrecalls : Recalls d v k old w (id :: path) first s)
    (haccounts : Accounts d old w env first s) :
    k.SideBySideIn (Correspondence.Fixed old) w (Inside d v k old path env first s id)
      (v.lowerNode s (.const id t data)) (v.expand env (.const id t data)) := by
  unfold Walk.lowerNode Walk.expand
  refine (SideBySide.constantTensor hw hknown hbelow v.aspect).bind fun w₁ u u' hw₁ hu => ?_
  have hrecalls₁ := hrecalls.later hw₁ (List.Subset.refl first)
  have haccounts₁ := (haccounts.later hw₁).remember id [u]
  refine .pure ⟨hu.1, ⟨List.Forall₂.cons hu.2 List.Forall₂.nil, hrecalls₁, ?_, ?_⟩, haccounts₁⟩
  · exact Widens.refl s.bound
  · exact fun c hc => absurd hc List.not_mem_nil

/-- A call whose arguments were found is lowered, which makes it the first copy of its node. -/
private theorem sideBySide_call {id : Nat} {call : Call} {s₁ : Progress} {copies : List CallCopy}
    (hv : v.collaborators.Pure k old) (hw : w.Fixed old) (hknown : call.type.hasUnknown = false)
    (hbelow : call.type.Below old)
    (h : Mirrored d v k old (id :: path) env first s w (ts, s₁) (us, copies)) :
    k.SideBySideIn (Correspondence.Fixed old) w (Inside d v k old path env first s id)
      (v.finishCall s₁ call ts) (do
        let (ts, copy) ← v.lowerCopy id call us
        return (ts, copies ++ [copy])) := by
  -- the call was entered and not left, so no copy of it was noted
  have hmiss : s₁.memo.lookup id = none := h.recalls.entered id List.mem_cons_self
  rw [v.finishCall_eq s₁ id]
  refine (Walk.sideBySide_lowerCopy hv hw id hknown hbelow h.same).bind ?_
  rintro w₁ ⟨ts₁, copy⟩ ⟨us₁, copy'⟩ hw₁ ⟨hfixed₁, hsame, rfl, hlooks⟩
  have hcopies : (copies ++ [copy']).foldl noteCopy first =
      noteCopy (copies.foldl noteCopy first) copy' := List.foldl_concat ..
  have hfirst : noteCopy (copies.foldl noteCopy first) copy' =
      copies.foldl noteCopy first ++ [copy'] := h.accounts.noteCopy_eq hmiss
  have hsubset := subset_noteCopy (copies.foldl noteCopy first) copy'
  have hrecalls := h.recalls.later hw₁ hsubset
  refine .pure ⟨hfixed₁, ⟨hsame, ?_, h.widens, ?_⟩, ?_⟩
  · rw [hcopies]
    exact ⟨hrecalls.entered, hrecalls.kept⟩
  · rw [hcopies, List.forall_mem_append, List.forall_mem_singleton]
    constructor
    · intro c hc
      rw [hw₁.right.params]
      exact (h.copies c hc).mono hsubset
    · refine ⟨copy', ?_, hlooks.symm.trans hlooks⟩
      rw [hfirst]
      exact List.mem_append_right _ List.mem_cons_self
  · rw [hcopies]
    exact (h.accounts.later hw₁).log hlooks hmiss ts₁

mutual

/-- **The walk mirrors the recursion.** -/
theorem sideBySide_visit (hv : v.collaborators.Pure k old) (hknown : d.function.Known)
    (hbelow : d.function.Below old) : (e : Expr) → ∀ {w : Correspondence} {path : List Nat}
    {env : List (Nat × List Tensor)} {first : List CallCopy} {s : Progress},
    d.Place path e → w.Fixed old → Recalls d v k old w path first s →
    Accounts d old w env first s → Sees d w path s.bound env e.Uses →
    k.SideBySideIn (Correspondence.Fixed old) w (Mirrored d v k old path env first s)
      (v.visit s e) (v.expand env e)
  | .var id x, w, path, env, first, s, hp, hw, hrecalls, haccounts, hsees => by
    refine sideBySide_meet hv hknown hbelow hp hw hrecalls haccounts hsees fun henter => ?_
    exact sideBySide_var hw henter haccounts hsees
  | .const id t data, w, path, env, first, s, hp, hw, hrecalls, haccounts, hsees => by
    refine sideBySide_meet hv hknown hbelow hp hw hrecalls haccounts hsees fun henter => ?_
    exact sideBySide_const hw (hknown.constants id t data hp.within)
      (hbelow.constants id t data hp.within) henter haccounts
  | .call id op attrs args type, w, path, env, first, s, hp, hw, hrecalls, haccounts, hsees => by
    refine sideBySide_meet hv hknown hbelow hp hw hrecalls haccounts hsees fun henter => ?_
    have hargs := sideBySide_visitAll hv hknown hbelow args hp.call hw henter haccounts
      (hsees.enter id)
    unfold Walk.lowerNode Walk.expand
    refine hargs.bind ?_
    rintro w₁ ⟨ts, s₁⟩ ⟨us, copies⟩ hw₁ ⟨hfixed₁, hinputs⟩
    exact sideBySide_call hv hfixed₁ (hknown.calls id op attrs args type hp.within)
      (hbelow.calls id op attrs args type hp.within) hinputs
  | .tuple id fields, w, path, env, first, s, hp, hw, hrecalls, haccounts, hsees => by
    refine sideBySide_meet hv hknown hbelow hp hw hrecalls haccounts hsees fun henter => ?_
    have hfields := sideBySide_visitAll hv hknown hbelow fields hp.tuple hw henter haccounts
      (hsees.enter id)
    unfold Walk.lowerNode Walk.expand
    exact hfields.imp fun w₁ r r' _ hr => ⟨hr.1, hr.2.inside⟩
  | .proj id e i, w, path, env, first, s, hp, hw, hrecalls, haccounts, hsees => by
    refine sideBySide_meet hv hknown hbelow hp hw hrecalls haccounts hsees fun henter => ?_
    have he := sideBySide_visit hv hknown hbelow e hp.proj hw henter haccounts (hsees.enter id)
    unfold Walk.lowerNode Walk.expand
    refine he.bind ?_
    rintro w₁ ⟨ts, s₁⟩ ⟨us, copies⟩ hw₁ ⟨hfixed₁, he₁⟩
    dsimp only
    obtain ⟨why, hwhy, hwhy'⟩ | ⟨ts', us', hok, hok', hsame⟩ :=
      projectTensors_alike he₁.same e.type i
    · rw [hwhy, hwhy']
      exact .fail _
    · rw [hok, hok']
      refine .pure ⟨hfixed₁, ⟨hsame, he₁.recalls, he₁.widens, he₁.copies⟩, ?_⟩
      exact he₁.accounts.remember id ts'
  | .letIn id x value body, w, path, env, first, s, hp, hw, hrecalls, haccounts, hsees => by
    refine sideBySide_meet hv hknown hbelow hp hw hrecalls haccounts hsees fun henter => ?_
    have hlet : (id, x.id) ∈ d.function.body.lets := hp.lets List.mem_cons_self
    have hbinds : d.function.Binds x.id := Or.inr ⟨id, hlet⟩
    have hvalue := sideBySide_visit hv hknown hbelow value hp.value hw henter haccounts
      ((hsees.enter id).imp fun y hy => Or.inl hy)
    unfold Walk.lowerNode Walk.expand
    refine hvalue.bind ?_
    rintro w₁ ⟨ts, s₁⟩ ⟨us, copies⟩ hw₁ ⟨hfixed₁, hvalue₁⟩
    -- the definition was entered and not left, so its variable is new
    have hx : s₁.bound.lookup x.id = none :=
      hvalue₁.accounts.lookup_eq_none hsees hlet hp.notMem
        (hvalue₁.recalls.entered id List.mem_cons_self)
    have hsees₁ : Sees d w₁ (id :: path) ((x.id, ts) :: s₁.bound) ((x.id, us) :: env) body.Uses :=
      ((hsees.enter id).later hw₁ hvalue₁.widens).bind List.mem_cons_self hlet
        (fun y hy hne => Or.inr ⟨hy, hne⟩) hvalue₁.same
    have hbody := sideBySide_visit hv hknown hbelow body hp.body hfixed₁
      (hvalue₁.recalls.bind hx hbinds ts) (hvalue₁.accounts.bind x ts us) hsees₁
    dsimp only
    rw [← bind_pure (v.visit (s₁.bind x ts) body)]
    refine hbody.bind ?_
    rintro w₂ ⟨ts₂, s₂⟩ ⟨us₂, copies₂⟩ hw₂ ⟨hfixed₂, hbody₂⟩
    refine .pure ⟨hfixed₂, ?_, ?_⟩
    · exact hvalue₁.toFound.append hw₂ (Widens.cons hx hbinds ts) hbody₂.toFound hbody₂.same
    · -- from now on the node of the definition accounts for the variable
      rw [List.foldl_append]
      exact hbody₂.accounts.close hlet ts₂

/-- The same for several expressions. -/
theorem sideBySide_visitAll (hv : v.collaborators.Pure k old) (hknown : d.function.Known)
    (hbelow : d.function.Below old) : (es : List Expr) → ∀ {w : Correspondence} {path : List Nat}
    {env : List (Nat × List Tensor)} {first : List CallCopy} {s : Progress},
    (∀ e ∈ es, d.Place path e) → w.Fixed old → Recalls d v k old w path first s →
    Accounts d old w env first s → Sees d w path s.bound env (Expr.UsesAny es) →
    k.SideBySideIn (Correspondence.Fixed old) w (Mirrored d v k old path env first s)
      (v.visitAll s es) (v.expandAll env es)
  | [], w, path, env, first, s, hp, hw, hrecalls, haccounts, hsees => by
    unfold Walk.visitAll Walk.expandAll
    refine .pure ⟨hw, ⟨List.Forall₂.nil, hrecalls, Widens.refl s.bound, ?_⟩, haccounts⟩
    exact fun c hc => absurd hc List.not_mem_nil
  | e :: es, w, path, env, first, s, hp, hw, hrecalls, haccounts, hsees => by
    rw [List.forall_mem_cons] at hp
    unfold Walk.visitAll Walk.expandAll
    refine (sideBySide_visit hv hknown hbelow e hp.1 hw hrecalls haccounts
      (hsees.imp fun x hx => Or.inl hx)).bind ?_
    rintro w₁ ⟨ts, s₁⟩ ⟨us, copies⟩ hw₁ ⟨hfixed₁, he⟩
    have hsees₁ := (hsees.imp fun x hx => Or.inr hx).later hw₁ he.widens
    refine (sideBySide_visitAll hv hknown hbelow es hp.2 hfixed₁ he.recalls he.accounts
      hsees₁).bind ?_
    rintro w₂ ⟨ts₂, s₂⟩ ⟨us₂, copies₂⟩ hw₂ ⟨hfixed₂, hes⟩
    refine .pure ⟨hfixed₂, ?_, ?_⟩
    · exact he.toFound.append hw₂ (Widens.refl s₁.bound) hes.toFound
        (List.rel_append (hw₂.sameAll he.same) hes.same)
    · rw [List.foldl_append]
      exact hes.accounts

end

end

end TensorLowering
