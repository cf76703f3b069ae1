import TensorLowering.Proofs.Fingerprint.Tables
import TensorLowering.Proofs.Graph.Within
import TensorLowering.Proofs.Lowering.Pure

/-!
# Lowering a function as a tree

The walk that lowers a function keeps the tensors of every node, and has one table of variables.
What it is meant to compute is simpler: a recursion over the function as a tree, in which a node is
lowered wherever it occurs, with the variables that are bound around the occurrence
(`Walk.expand`). Every copy of a call that is lowered on the way is noted (`CallCopy`).

With pure collaborators the recursion depends on nothing but what the variables look like that an
expression uses (`Expr.Uses`): in two environments in which these look alike, on any two machines,
it ends alike (`Walk.sideBySide_expand`).
-/

namespace TensorLowering

open Encoding Setting

variable {σ : Type}

/-! ### The recursion -/

/-- A copy of a call, and what was noted when it was lowered. -/
structure CallCopy where
  /-- The node of the call. -/
  node : Nat
  /-- What was chosen, unless it was the shape of the call that was lowered. -/
  calls : List LoweredCall
  /-- The operator. -/
  ops : List String

/-- Note what was noted for a copy of a call. -/
def Progress.log (s : Progress) (c : CallCopy) : Progress :=
  { s with calls := c.calls.reverse ++ s.calls, ops := c.ops.reverse ++ s.ops }

namespace Walk

/-- Lower one copy of a call. -/
def lowerCopy (w : Walk σ) (node : Nat) (call : Call) (inputs : List Tensor) :
    Action σ (List Tensor × CallCopy) := do
  let (ts, found) ← w.finishCall .start call inputs
  return (ts, ⟨node, found.calls, found.ops⟩)

mutual

/-- Lower an expression as a tree, with the variables that are bound around it, innermost first.
The copies of calls are noted in the order of evaluation. -/
def expand (w : Walk σ) (env : List (Nat × List Tensor)) :
    Expr → Action σ (List Tensor × List CallCopy)
  | .var _ v =>
    match env.lookup v.id with
    | some ts => return (ts, [])
    | none => Action.fail (.unsupported (.freeVariable v.name))
  | .const _ t _ => do
    let t ← constantTensor w.aspect t
    return ([t], [])
  | .call id op attrs args type => do
    let (inputs, copies) ← expandAll w env args
    let (ts, copy) ← w.lowerCopy id ⟨op, attrs, args, type⟩ inputs
    return (ts, copies ++ [copy])
  | .tuple _ fields => expandAll w env fields
  | .proj _ tuple index => do
    let (ts, copies) ← expand w env tuple
    match projectTensors tuple.type ts index with
    | .ok ts => return (ts, copies)
    | .error why => Action.fail (.unsupported why)
  | .letIn _ v value body => do
    let (ts, copies) ← expand w env value
    let (us, copies') ← expand w ((v.id, ts) :: env) body
    return (us, copies ++ copies')

/-- Lower several expressions as trees, from left to right. -/
def expandAll (w : Walk σ) (env : List (Nat × List Tensor)) :
    List Expr → Action σ (List Tensor × List CallCopy)
  | [] => return ([], [])
  | e :: es => do
    let (ts, copies) ← expand w env e
    let (us, copies') ← expandAll w env es
    return (ts ++ us, copies ++ copies')

end

end Walk

/-- A function that was lowered as a tree. -/
structure Expanded where
  inputs : List Tensor
  outputs : List Tensor
  /-- The copies of calls, in the order of evaluation. -/
  copies : List CallCopy

/-- Lower a function as a tree. -/
def Walk.lowerTree (w : Walk σ) (f : Function) : Action σ Expanded := do
  let (inputs, s) ← w.bindParams .start f.params
  let (outputs, copies) ← w.expand s.bound f.body
  return ⟨inputs, outputs, copies⟩

/-! ### The variables that an expression uses -/

mutual

/-- The variable occurs in the expression and is not bound there. -/
def Expr.Uses : Expr → Nat → Prop
  | .var _ v, x => v.id = x
  | .const .., _ => False
  | .call _ _ _ args _, x => Expr.UsesAny args x
  | .tuple _ fields, x => Expr.UsesAny fields x
  | .proj _ e _, x => Expr.Uses e x
  | .letIn _ v value body, x => Expr.Uses value x ∨ (Expr.Uses body x ∧ x ≠ v.id)

/-- The same for one of several expressions. -/
def Expr.UsesAny : List Expr → Nat → Prop
  | [], _ => False
  | e :: es, x => Expr.Uses e x ∨ Expr.UsesAny es x

end

namespace Expr

mutual

/-- A variable that is used has an occurrence to which no binder belongs but one from outside. -/
theorem Uses.exists_occurs {x : Nat} : (e : Expr) → e.Uses x → ∀ xs,
    ∃ path ys, e.Occurs xs path ys x ∧ (x ∈ ys → x ∈ xs)
  | .var id v, h, xs => by
    obtain rfl : v.id = x := h
    exact ⟨[], xs, .var id v xs, fun hx => hx⟩
  | .const .., h, _ => h.elim
  | .call id op attrs args type, h, xs => by
    obtain ⟨i, a, ha, path, ys, hoccurs, hys⟩ := UsesAny.exists_occurs args h xs
    exact ⟨i :: path, ys, .call id op attrs type ha hoccurs, hys⟩
  | .tuple id fields, h, xs => by
    obtain ⟨i, a, ha, path, ys, hoccurs, hys⟩ := UsesAny.exists_occurs fields h xs
    exact ⟨i :: path, ys, .tuple id ha hoccurs, hys⟩
  | .proj id e i, h, xs => by
    obtain ⟨path, ys, hoccurs, hys⟩ := Uses.exists_occurs e h xs
    exact ⟨0 :: path, ys, .proj id i hoccurs, hys⟩
  | .letIn id v value body, h, xs => by
    obtain h | ⟨h, hne⟩ := h
    · obtain ⟨path, ys, hoccurs, hys⟩ := Uses.exists_occurs value h xs
      exact ⟨0 :: path, ys, .letValue id v body hoccurs, hys⟩
    · obtain ⟨path, ys, hoccurs, hys⟩ := Uses.exists_occurs body h (v.id :: xs)
      refine ⟨1 :: path, ys, .letBody id v value hoccurs, fun hx => ?_⟩
      exact (List.mem_cons.mp (hys hx)).resolve_left hne

/-- The same for several expressions. -/
theorem UsesAny.exists_occurs {x : Nat} : (es : List Expr) → UsesAny es x → ∀ xs,
    ∃ (i : Nat) (e : Expr), es[i]? = some e ∧ ∃ path ys, e.Occurs xs path ys x ∧ (x ∈ ys → x ∈ xs)
  | [], h, _ => h.elim
  | e :: es, h, xs => by
    obtain h | h := h
    · exact ⟨0, e, rfl, Uses.exists_occurs e h xs⟩
    · obtain ⟨i, a, ha, h⟩ := UsesAny.exists_occurs es h xs
      exact ⟨i + 1, a, ha, h⟩

end

end Expr

/-! ### Known functions -/

/-- No dimension is unknown in the types of a function. -/
structure Function.Known (f : Function) : Prop where
  params : ∀ v ∈ f.params, v.type.hasUnknown = false
  constants : f.KnownConstants
  calls : ∀ id op attrs args t, (Expr.call id op attrs args t).Within f.body →
    t.hasUnknown = false

/-! ### The recursion in two environments -/

/-- What was chosen is the same, with outputs that look the same. -/
structure LoweredCall.Looks (old : Nat) (params params' : List Nat) (c c' : LoweredCall) :
    Prop where
  implementation : c.implementation = c'.implementation
  priority : c.priority = c'.priority
  outputs : List.Forall₂ (Tensor.Looks old params params') c.outputs c'.outputs

/-- Copies of one call that were lowered to the same. -/
structure CallCopy.Looks (old : Nat) (params params' : List Nat) (c c' : CallCopy) : Prop where
  node : c.node = c'.node
  calls : List.Forall₂ (LoweredCall.Looks old params params') c.calls c'.calls
  ops : c.ops = c'.ops

section

variable {old : Nat} {params params' params'' : List Nat}

/-- Lowered calls look the same both ways. -/
theorem LoweredCall.Looks.symm {c c' : LoweredCall} (h : c.Looks old params params' c') :
    c'.Looks old params' params c :=
  ⟨h.implementation.symm, h.priority.symm, (h.outputs.imp fun _ _ ht => ht.symm).flip⟩

/-- Lowered calls that look the same as one in the middle look the same. -/
theorem LoweredCall.Looks.trans {c c' c'' : LoweredCall} (h : c.Looks old params params' c')
    (h' : c'.Looks old params' params'' c'') : c.Looks old params params'' c'' :=
  ⟨h.implementation.trans h'.implementation, h.priority.trans h'.priority,
    forall₂_trans (fun _ _ _ ht ht' => ht.trans ht') h.outputs h'.outputs⟩

/-- Copies look the same both ways. -/
theorem CallCopy.Looks.symm {c c' : CallCopy} (h : c.Looks old params params' c') :
    c'.Looks old params' params c :=
  ⟨h.node.symm, (h.calls.imp fun _ _ hc => hc.symm).flip, h.ops.symm⟩

/-- Copies that look the same as one in the middle look the same. -/
theorem CallCopy.Looks.trans {c c' c'' : CallCopy} (h : c.Looks old params params' c')
    (h' : c'.Looks old params' params'' c'') : c.Looks old params params'' c'' :=
  ⟨h.node.trans h'.node, forall₂_trans (fun _ _ _ hc hc' => hc.trans hc') h.calls h'.calls,
    h.ops.trans h'.ops⟩

private theorem LoweredCall.Alike.looks {w : Correspondence} (hw : w.Fixed old) {c c' : LoweredCall}
    (h : c.Alike w c') : c.Looks old w.left.params w.right.params c' :=
  ⟨h.implementation, h.priority, h.outputs.imp fun _ _ ht => hw.looks ht⟩

end

/-- What two expansions end with: tensors that look alike, and copies of the same calls that were
lowered to the same. -/
structure ExpandedAlike (old : Nat) (w : Correspondence)
    (r r' : List Tensor × List CallCopy) : Prop where
  same : w.SameAll r.1 r'.1
  copies : List.Forall₂ (CallCopy.Looks old w.left.params w.right.params) r.2 r'.2

/-- Expansions stay alike when more is made. -/
theorem ExpandedAlike.mono {w w' : Correspondence} (hw : w.Grows w')
    {r r' : List Tensor × List CallCopy} (h : ExpandedAlike old w r r') :
    ExpandedAlike old w' r r' := by
  refine ⟨hw.sameAll h.same, ?_⟩
  rw [hw.left.params, hw.right.params]
  exact h.copies

namespace Walk

variable {v : Walk σ} {k : Setting σ} {old : Nat} {w w' : Correspondence} {f : Function}

/-- Finishing a call is lowering a copy, and noting it. -/
theorem finishCall_eq (v : Walk σ) (s : Progress) (node : Nat) (call : Call)
    (inputs : List Tensor) :
    v.finishCall s call inputs = (do
      let (ts, copy) ← v.lowerCopy node call inputs
      return (ts, s.log copy)) := by
  unfold lowerCopy finishCall
  split
  · rw [bind_assoc, bind_assoc]
    rfl
  · rw [bind_assoc, bind_assoc]
    rfl

/-- **Copies of a call look alike** if their inputs do. -/
theorem sideBySide_lowerCopy (hv : v.collaborators.Pure k old) (hw : w.Fixed old) (node : Nat)
    {call : Call} (hknown : call.type.hasUnknown = false) (hbelow : call.type.Below old)
    {inputs inputs' : List Tensor} (hinputs : w.SameAll inputs inputs') :
    k.SideBySideIn (Correspondence.Fixed old) w
      (fun w r r' => w.SameAll r.1 r'.1 ∧ r'.2.node = node ∧
        r.2.Looks old w.left.params w.right.params r'.2)
      (v.lowerCopy node call inputs) (v.lowerCopy node call inputs') := by
  have hcall : call.Alike call := ⟨rfl, rfl, rfl, rfl⟩
  have htype := SideBySide.normalize (k := k) hw hknown hbelow
  unfold lowerCopy finishCall
  split
  · rw [bind_assoc, bind_assoc]
    refine (SideBySide.lowerCall_in hv (Correspondence.decides_fixed old) hcall htype hinputs
      v.target v.useCosts).bind ?_
    intro w₁ c c' _ hc
    refine .pure ⟨hc.1, hc.2.outputs, rfl, rfl, ?_, rfl⟩
    exact List.Forall₂.cons (hc.2.looks hc.1) List.Forall₂.nil
  · rw [bind_assoc, bind_assoc]
    refine (SideBySide.callShapeFunction_in hv hw hcall hinputs).bind fun w₁ ts ts' _ hts => ?_
    exact .pure ⟨hts.1, hts.2, rfl, rfl, List.Forall₂.nil, rfl⟩

/-- Two environments give what looks alike to the variables that are used. -/
theorem optionRel_lookup_cons {w : Correspondence} {x y : Nat} {ts ts' : List Tensor}
    {env env' : List (Nat × List Tensor)} (hts : w.SameAll ts ts')
    (h : y ≠ x → Option.Rel w.SameAll (env.lookup y) (env'.lookup y)) :
    Option.Rel w.SameAll (List.lookup y ((x, ts) :: env)) (List.lookup y ((x, ts') :: env')) := by
  rw [lookup_cons_ite, lookup_cons_ite]
  by_cases hy : y = x
  · rw [if_pos hy, if_pos hy]
    exact Option.Rel.some hts
  · rw [if_neg hy, if_neg hy]
    exact h hy

/-- Tables stay alike when more is made. -/
theorem optionRel_mono {w w' : Correspondence} (hw : w.Grows w') {o o' : Option (List Tensor)}
    (h : Option.Rel w.SameAll o o') : Option.Rel w'.SameAll o o' := by
  cases h with
  | some hts => exact Option.Rel.some (hw.sameAll hts)
  | none => exact Option.Rel.none

mutual

/-- **The recursion ends alike** in environments in which the variables look alike that are
used. -/
theorem sideBySide_expand (hv : v.collaborators.Pure k old) (hknown : f.Known)
    (hbelow : f.Below old) : (e : Expr) → e.Within f.body → ∀ {w : Correspondence}
    {env env' : List (Nat × List Tensor)}, w.Fixed old →
    (∀ x, e.Uses x → Option.Rel w.SameAll (env.lookup x) (env'.lookup x)) →
    k.SideBySideIn (Correspondence.Fixed old) w (ExpandedAlike old) (v.expand env e)
      (v.expand env' e)
  | .var id x, _, w, env, env', hw, henv => by
    have hx := henv x.id rfl
    unfold expand
    generalize env.lookup x.id = o at hx
    generalize env'.lookup x.id = o' at hx
    cases hx with
    | some hts => exact .pure ⟨hw, hts, List.Forall₂.nil⟩
    | none => exact .fail _
  | .const id t data, hwithin, w, env, env', hw, _ => by
    unfold expand
    refine (SideBySide.constantTensor hw (hknown.constants id t data hwithin)
      (hbelow.constants id t data hwithin) v.aspect).bind fun w₁ u u' _ hu => ?_
    exact .pure ⟨hu.1, List.Forall₂.cons hu.2 List.Forall₂.nil, List.Forall₂.nil⟩
  | .call id op attrs args type, hwithin, w, env, env', hw, henv => by
    unfold expand
    refine (sideBySide_expandAll hv hknown hbelow args
      (fun a ha => (Expr.Within.call id op attrs type ha (.refl a)).trans hwithin) hw henv).bind ?_
    rintro w₁ ⟨ts, copies⟩ ⟨ts', copies'⟩ hw₁ ⟨hfixed₁, hsame⟩
    refine (sideBySide_lowerCopy hv hfixed₁ id (hknown.calls id op attrs args type hwithin)
      (hbelow.calls id op attrs args type hwithin) hsame.same).bind ?_
    rintro w₂ ⟨us, copy⟩ ⟨us', copy'⟩ hw₂ ⟨hfixed₂, hus, -, hcopy⟩
    -- the copy of the call comes after those in its arguments
    refine .pure ⟨hfixed₂, hus, ?_⟩
    exact List.rel_append (hsame.mono hw₂).copies (List.Forall₂.cons hcopy List.Forall₂.nil)
  | .tuple id fields, hwithin, w, env, env', hw, henv => by
    unfold expand
    exact sideBySide_expandAll hv hknown hbelow fields
      (fun a ha => (Expr.Within.tuple id ha (.refl a)).trans hwithin) hw henv
  | .proj id e i, hwithin, w, env, env', hw, henv => by
    unfold expand
    refine (sideBySide_expand hv hknown hbelow e ((Expr.Within.proj id i (.refl e)).trans hwithin)
      hw henv).bind ?_
    rintro w₁ ⟨ts, copies⟩ ⟨ts', copies'⟩ hw₁ ⟨hfixed₁, hsame⟩
    dsimp only
    obtain ⟨why, hwhy, hwhy'⟩ | ⟨us, us', hok, hok', hus⟩ :=
      projectTensors_alike hsame.same e.type i
    · rw [hwhy, hwhy']
      exact .fail _
    · rw [hok, hok']
      exact .pure ⟨hfixed₁, hus, hsame.copies⟩
  | .letIn id x value body, hwithin, w, env, env', hw, henv => by
    unfold expand
    refine (sideBySide_expand hv hknown hbelow value
      ((Expr.Within.letValue id x body (.refl value)).trans hwithin) hw
      fun y hy => henv y (Or.inl hy)).bind ?_
    rintro w₁ ⟨ts, copies⟩ ⟨ts', copies'⟩ hw₁ ⟨hfixed₁, hsame⟩
    -- whatever the variable was outside, in the body it looks alike
    refine (sideBySide_expand hv hknown hbelow body
      ((Expr.Within.letBody id x value (.refl body)).trans hwithin) hfixed₁ fun y hy =>
        optionRel_lookup_cons hsame.same fun hne =>
          optionRel_mono hw₁ (henv y (Or.inr ⟨hy, hne⟩))).bind ?_
    rintro w₂ ⟨us, copies₁⟩ ⟨us', copies₁'⟩ hw₂ ⟨hfixed₂, hus⟩
    exact .pure ⟨hfixed₂, hus.same, List.rel_append (hsame.mono hw₂).copies hus.copies⟩

/-- The same for several expressions. -/
theorem sideBySide_expandAll (hv : v.collaborators.Pure k old) (hknown : f.Known)
    (hbelow : f.Below old) : (es : List Expr) → (∀ e ∈ es, e.Within f.body) →
    ∀ {w : Correspondence} {env env' : List (Nat × List Tensor)}, w.Fixed old →
    (∀ x, Expr.UsesAny es x → Option.Rel w.SameAll (env.lookup x) (env'.lookup x)) →
    k.SideBySideIn (Correspondence.Fixed old) w (ExpandedAlike old) (v.expandAll env es)
      (v.expandAll env' es)
  | [], _, w, env, env', hw, _ => by
    unfold expandAll
    exact .pure ⟨hw, List.Forall₂.nil, List.Forall₂.nil⟩
  | e :: es, hwithin, w, env, env', hw, henv => by
    rw [List.forall_mem_cons] at hwithin
    unfold expandAll
    have hfirst := sideBySide_expand hv hknown hbelow e hwithin.1 hw fun x hx => henv x (Or.inl hx)
    refine hfirst.bind ?_
    rintro w₁ ⟨ts, copies⟩ ⟨ts', copies'⟩ hw₁ ⟨hfixed₁, hsame⟩
    refine (sideBySide_expandAll hv hknown hbelow es hwithin.2 hfixed₁ fun x hx =>
      optionRel_mono hw₁ (henv x (Or.inr hx))).bind ?_
    rintro w₂ ⟨us, copies₁⟩ ⟨us', copies₁'⟩ hw₂ ⟨hfixed₂, hus⟩
    refine .pure ⟨hfixed₂, ?_, ?_⟩
    · exact List.rel_append (hw₂.sameAll hsame.same) hus.same
    · exact List.rel_append (hsame.mono hw₂).copies hus.copies

end

end Walk

end TensorLowering
