import TensorLowering.Proofs.Lowering.TensorCounts

/-!
# Values and shapes of one function

A function is lowered for its values and for its shapes by one walk, which treats parameters,
constants and calls differently. Callers pair what the two lowerings result in by position. If both
end well, they have reached the same calls in the same order, and there is one placeholder for a
shape for each placeholder for a value, which it is named after and sized for
(`Walk.bindParams_holdsShapes`). There are as many outputs on both sides if every expression yields
one tensor for each leaf of its type, for which the sides take different precautions: shape
functions are checked, implementations are trusted (`Walk.lower_aspects_agree`).
-/

namespace TensorLowering

open TensorLowering.Action

variable {σ : Type}

/-- The first tensor holds the extents of the second one: it has its name, and one dimension, which
is the number of its dimensions. -/
structure Tensor.HoldsShape (u t : Tensor) : Prop where
  name : u.name = t.name
  dtype : u.dtype = .int64
  shape : u.shape = [.imm t.rank .int32]

private theorem normalizeShape_length {shape shape' : List IndexExpr} {lots : Nat → Nat}
    {next next' : Nat} (h : normalizeShape next shape lots = .ok (shape', next')) :
    shape'.length = shape.length := by
  induction shape generalizing shape' next next' with
  | nil =>
    cases h
    rfl
  | cons e shape ih =>
    obtain ⟨⟨e', n₁⟩, -, h⟩ := Except.bind_eq_ok_iff.mp h
    obtain ⟨⟨rest, n₂⟩, hrest, h⟩ := Except.bind_eq_ok_iff.mp h
    cases h
    exact congrArg Nat.succ (ih hrest)

section

variable {name : String} {m n m' n' : Machine σ}

private theorem Action.placeholder_eq_ok {shape : List IndexExpr} {dtype : DataType} {t : Tensor}
    (h : placeholder name shape dtype m = (.ok t, n)) : t = .placeholder m.next name shape dtype :=
  (Outcome.ok.inj (Prod.mk.inj h).1).symm

/-- The placeholder for the value of a parameter has the name of the parameter and as many
dimensions as its type. -/
private theorem inputTensor_values {type : TensorType} {t : Tensor}
    (h : inputTensor .values name type m = (.ok t, n)) : t.name = name ∧ t.rank = type.rank := by
  obtain ⟨shape, m₁, hshape, h⟩ := bind_eq_ok_iff.mp h
  obtain ⟨next, hnormal, -⟩ := takeNumbers_eq_ok_iff.mp hshape
  obtain rfl := placeholder_eq_ok h
  exact ⟨rfl, normalizeShape_length hnormal⟩

/-- The placeholder for the shape of a parameter holds the extents of that for its value. -/
private theorem inputTensor_holdsShape {type : TensorType} {t u : Tensor}
    (h : inputTensor .values name type m = (.ok t, n))
    (h' : inputTensor .shapes name type m' = (.ok u, n')) : u.HoldsShape t := by
  obtain ⟨hname, hrank⟩ := inputTensor_values h
  obtain rfl := placeholder_eq_ok h'
  refine ⟨hname.symm, rfl, ?_⟩
  rw [hrank]
  rfl

private theorem inputTensors_holdShapes {types : List TensorType} {ts us : List Tensor}
    (h : inputTensors .values name types m = (.ok ts, n))
    (h' : inputTensors .shapes name types m' = (.ok us, n')) :
    List.Forall₂ Tensor.HoldsShape us ts := by
  induction types generalizing m m' ts us with
  | nil =>
    obtain ⟨rfl, -⟩ := pure_eq_ok_iff.mp h
    obtain ⟨rfl, -⟩ := pure_eq_ok_iff.mp h'
    exact .nil
  | cons type types ih =>
    obtain ⟨t, m₁, ht, h⟩ := bind_eq_ok_iff.mp h
    obtain ⟨rest, m₂, hrest, h⟩ := bind_eq_ok_iff.mp h
    obtain ⟨rfl, rfl⟩ := pure_eq_ok_iff.mp h
    obtain ⟨u, m₁', hu, h'⟩ := bind_eq_ok_iff.mp h'
    obtain ⟨rest', m₂', hrest', h'⟩ := bind_eq_ok_iff.mp h'
    obtain ⟨rfl, rfl⟩ := pure_eq_ok_iff.mp h'
    exact .cons (inputTensor_holdsShape ht hu) (ih hrest hrest')

end

namespace Walk

variable {v w : Walk σ} {f : Function} {m n m' n' : Machine σ} {l l' : Lowered}

/-- **The placeholders for shapes are those for values**, in the same order, each with the name of
the other and one dimension for its rank. -/
theorem bindParams_holdShapes (hv : v.aspect = .values) (hw : w.aspect = .shapes) {xs : List Var}
    {p p' q q' : Progress} {ts us : List Tensor}
    (h : v.bindParams p xs m = (.ok (ts, p'), n))
    (h' : w.bindParams q xs m' = (.ok (us, q'), n')) : List.Forall₂ Tensor.HoldsShape us ts := by
  induction xs generalizing p q m m' ts us with
  | nil =>
    obtain ⟨rfl, -, -⟩ := pure_pair_eq_ok_iff.mp h
    obtain ⟨rfl, -, -⟩ := pure_pair_eq_ok_iff.mp h'
    exact .nil
  | cons x xs ih =>
    obtain ⟨first, m₁, hfirst, h⟩ := bind_eq_ok_iff.mp h
    obtain ⟨⟨rest, p₁⟩, m₂, hrest, h⟩ := bind_eq_ok_iff.mp h
    obtain ⟨rfl, rfl, rfl⟩ := pure_pair_eq_ok_iff.mp h
    obtain ⟨first', m₁', hfirst', h'⟩ := bind_eq_ok_iff.mp h'
    obtain ⟨⟨rest', q₁⟩, m₂', hrest', h'⟩ := bind_eq_ok_iff.mp h'
    obtain ⟨rfl, rfl, rfl⟩ := pure_pair_eq_ok_iff.mp h'
    rw [hv] at hfirst
    rw [hw] at hfirst'
    exact List.rel_append (inputTensors_holdShapes hfirst hfirst') (ih hrest hrest')

/-- A lowering that ends well has bound its parameters and visited its body. -/
private theorem lower_eq_ok_iff {w : Walk σ} : w.lower f m = (.ok l, n) ↔
    ∃ inputs s m₁ outputs s', w.bindParams .start f.params m = (.ok (inputs, s), m₁) ∧
      w.visit s f.body m₁ = (.ok (outputs, s'), n) ∧
      ⟨inputs, outputs, s'.calls.reverse, s'.ops.reverse⟩ = l := by
  constructor
  · intro h
    obtain ⟨⟨inputs, s⟩, m₁, hparams, h⟩ := bind_eq_ok_iff.mp h
    obtain ⟨⟨outputs, s'⟩, m₂, hvisit, h⟩ := bind_eq_ok_iff.mp h
    obtain ⟨rfl, rfl⟩ := pure_eq_ok_iff.mp h
    exact ⟨inputs, s, m₁, outputs, s', hparams, hvisit, rfl⟩
  · rintro ⟨inputs, s, m₁, outputs, s', hparams, hvisit, rfl⟩
    exact bind_eq_ok_iff.mpr ⟨(inputs, s), m₁, hparams,
      bind_eq_ok_iff.mpr ⟨(outputs, s'), n, hvisit, rfl⟩⟩

/-- The operators that a lowering has reached are those of the calls of the function. -/
private theorem ops_of_visit {w : Walk σ} (hf : f.Coherent) {inputs outputs : List Tensor}
    {s s' : Progress} {m₁ : Machine σ}
    (hparams : w.bindParams .start f.params m = (.ok (inputs, s), m₁))
    (hvisit : w.visit s f.body m₁ = (.ok (outputs, s'), n)) :
    s'.ops.reverse = f.callNodes.map fun c => c.call.op := by
  obtain ⟨k, hk⟩ := hf
  obtain ⟨hmemo, hcalls, hops⟩ := bindParams_memo hparams
  -- the rule is asked from the machine on with which the body is entered
  have hnoted : w.Noted m₁ [] s m₁ := by
    have hstart : w.Noted m₁ [] .start m₁ := ⟨rfl, fun _ => .start, fun _ => ⟨[], .start⟩⟩
    exact hstart.of_eq hcalls hops
  have hsettled : Settled k [] s := by
    refine ⟨fun c hc => absurd hc List.not_mem_nil, fun i hi => ?_⟩
    rw [hmemo] at hi
    exact absurd rfl hi
  exact (noted_visit f.body hk hnoted hsettled hvisit).1.ops

private theorem outputs_length_of_visit {w : Walk σ} {k : Catalogue} {var : Nat → Var}
    (hw : w.aspect = .values → w.collaborators.FillsTypes) (hf : f.Counts k var)
    {inputs outputs : List Tensor} {s s' : Progress} {m₁ : Machine σ}
    (hparams : w.bindParams .start f.params m = (.ok (inputs, s), m₁))
    (hvisit : w.visit s f.body m₁ = (.ok (outputs, s'), n)) :
    outputs.length = f.body.type.leaves.length := by
  have hbody : w.Yields f m f.body outputs :=
    ⟨⟨s, m₁, f.body⟩, s', n, ⟨inputs, s, m₁, hparams, .refl⟩, rfl, hvisit⟩
  exact hbody.length_eq hw hf

/-- **The two sides of a function agree.** If lowering a function ends well both for values and for
shapes, then

* the same operators were reached in the same order;
* there are as many inputs, and each one for a shape holds the extents of the one for a value that
  stands at its position;
* there are as many outputs, if one number stands for one variable, the implementations fill the
  types of the calls and local definitions declare their variables with the right leaves.

The two lowerings may begin with different machines and be given different collaborators. -/
theorem lower_aspects_agree (hv : v.aspect = .values) (hw : w.aspect = .shapes)
    (hf : f.Coherent) (h : v.lower f m = (.ok l, n)) (h' : w.lower f m' = (.ok l', n')) :
    l'.ops = l.ops ∧ List.Forall₂ Tensor.HoldsShape l'.inputs l.inputs ∧
      (f.AgreeOnVars f → f.DeclaresLeaves → v.collaborators.FillsTypes →
        l'.outputs.length = l.outputs.length) := by
  obtain ⟨inputs, s, m₁, outputs, t, hparams, hvisit, rfl⟩ := lower_eq_ok_iff.mp h
  obtain ⟨inputs', s', m₁', outputs', t', hparams', hvisit', rfl⟩ := lower_eq_ok_iff.mp h'
  refine ⟨?_, bindParams_holdShapes hv hw hparams hparams', fun hvars hlets hfills => ?_⟩
  · exact (ops_of_visit hf hparams' hvisit').trans (ops_of_visit hf hparams hvisit).symm
  · obtain ⟨k, hk⟩ := hf
    obtain ⟨var, hvar⟩ := hvars
    have hcounts : f.Counts k var := ⟨hk, fun x hx => hvar x (Or.inl hx), hlets⟩
    have hshapes : w.aspect = .values → w.collaborators.FillsTypes := by
      rw [hw]
      exact nofun
    exact (outputs_length_of_visit hshapes hcounts hparams' hvisit').trans
      (outputs_length_of_visit (fun _ => hfills) hcounts hparams hvisit).symm

end Walk

/-! ### An example -/

/-- Which variables a part names, and which it binds to values of which type. -/
structure Expr.NamesOf (xs ys : List Var) (t : Ty) (e : Expr) : Prop where
  var : ∀ id v, e = .var id v → v ∈ xs
  letIn : ∀ id v value body, e = .letIn id v value body → v ∈ ys ∧ value.type = t

private theorem sharedSum_namesOf {x y z : Var} {e : Expr} (h : e.Within (sharedSum x y)) :
    e.NamesOf [x, y] [y, z] x.type := by
  have hcall {i j : Nat} {op : String} {args : List Expr} {v : Var} (hv : v ∈ [x, y])
      (h : e.Within (.call i op .empty args x.type)) (hargs : ∀ a ∈ args, a = .var j v) :
      e.NamesOf [x, y] [y, z] x.type := by
    cases h with
    | refl =>
      constructor
      all_goals
        intros
        contradiction
    | call _ _ _ _ ha h =>
      obtain rfl := hargs _ ha
      cases h
      refine ⟨fun _ _ heq => (Expr.var.inj heq).2 ▸ hv, fun _ _ _ _ heq => ?_⟩
      cases heq
  cases h with
  | refl =>
    refine ⟨fun _ _ heq => ?_, fun _ _ _ _ heq => ?_⟩
    · cases heq
    · obtain ⟨-, rfl, rfl, -⟩ := Expr.letIn.inj heq
      exact ⟨List.mem_cons_self, rfl⟩
  | letValue _ _ _ h => exact hcall (j := 0) List.mem_cons_self h (by simp)
  | letBody _ _ _ h =>
    exact hcall (j := 4) (List.mem_cons_of_mem _ List.mem_cons_self) h (by simp)

private theorem Function.twoScopes_namesOf {x y z : Var} {e : Expr}
    (h : e.Within (twoScopes x y z).body) : e.NamesOf [x, y] [y, z] x.type := by
  cases h with
  | refl => exact ⟨nofun, nofun⟩
  | tuple _ ha h =>
    obtain rfl | ha := List.mem_cons.mp ha
    · exact sharedSum_namesOf h
    · obtain rfl := List.mem_singleton.mp ha
      cases h with
      | refl =>
        refine ⟨nofun, fun _ _ _ _ heq => ?_⟩
        obtain ⟨-, rfl, rfl, -⟩ := Expr.letIn.inj heq
        exact ⟨List.mem_cons_of_mem _ List.mem_cons_self, rfl⟩
      | letValue _ _ _ h =>
        cases h
        exact ⟨fun _ _ heq => (Expr.var.inj heq).2 ▸ List.mem_cons_self, nofun⟩
      | letBody _ _ _ h => exact sharedSum_namesOf h

private theorem Function.twoScopes_mentions {x y z v : Var} (h : (twoScopes x y z).Mentions v) :
    v ∈ [x, y, z] := by
  cases h with
  | param hv => exact List.mem_of_mem_take (i := 1) hv
  | letIn h => exact List.mem_cons_of_mem _ ((twoScopes_namesOf h).letIn _ _ _ _ rfl).1
  | occurrence h => exact List.mem_of_mem_take (i := 2) ((twoScopes_namesOf h).var _ _ rfl)

private theorem Collaborators.fillsTypes_logging : Collaborators.logging.FillsTypes := by
  intro own op s hs attrs inputs type target m offer n hoffer sp hsp i hi m' ts n' hrun
  obtain rfl := Option.some.inj hs
  obtain ⟨rfl, -⟩ := pure_eq_ok_iff.mp hoffer
  obtain rfl := List.mem_singleton.mp hsp
  obtain rfl := List.mem_singleton.mp hi
  obtain rfl := Outcome.ok.inj (Prod.mk.inj hrun).1
  exact List.length_map _

/-- Pairs with an unknown dimension, in a tuple behind a handle. The two calls of the function are
reached on both sides; each side has two inputs, and four outputs. -/
theorem Walk.lower_aspects_agree_shared :
    let t : Ty := .tensor ⟨[.imm 4 .int64, .unknown], .float 32⟩
    let type : Ty := .tuple [.handle "Storage", .tuple [t, t]]
    let f := Function.twoScopes ⟨0, "x", type⟩ ⟨1, "y", type⟩ ⟨2, "z", type⟩
    let w (aspect : Aspect) : Walk (List String) := ⟨.logging, ⟨.llvm, .empty⟩, false, aspect⟩
    let m : Machine (List String) := .initial [] 0
    ∃ l n l' n', (w .values).lower f m = (.ok l, n) ∧ (w .shapes).lower f m = (.ok l', n') ∧
      l.ops = ["relu", "add"] ∧ l.inputs.length = 2 ∧
      List.Forall₂ Tensor.HoldsShape l'.inputs l.inputs ∧ l.outputs.length = 4 := by
  intro t type f w m
  let x : Var := ⟨0, "x", type⟩
  let y : Var := ⟨1, "y", type⟩
  let z : Var := ⟨2, "z", type⟩
  have hvars : f.AgreeOnVars f := by
    refine ⟨fun i => if i = 0 then x else if i = 1 then y else z, fun v hv => ?_⟩
    have hmem : v ∈ [x, y, z] := Function.twoScopes_mentions (hv.elim id id)
    simp only [List.mem_cons, List.not_mem_nil, or_false] at hmem
    obtain rfl | rfl | rfl := hmem <;> rfl
  have hlets : f.DeclaresLeaves := by
    intro id v value body h
    obtain ⟨hv, htype⟩ := (Function.twoScopes_namesOf h).letIn _ _ _ _ rfl
    rw [htype]
    simp only [List.mem_cons, List.not_mem_nil, or_false] at hv
    obtain rfl | rfl := hv <;> rfl
  have hok : ((w .values).lower f m).1.isOk = true := by decide +kernel
  obtain ⟨l, n, h⟩ := Outcome.exists_of_isOk hok
  have h' : (w .shapes).lower f m = (.ok ⟨_, _, [], ["relu", "add"]⟩, _) := rfl
  obtain ⟨hops, hinputs, houtputs⟩ := Walk.lower_aspects_agree (v := w .values) (w := w .shapes)
    rfl rfl (Function.twoScopes_coherent x y z) h h'
  have hcount := houtputs hvars hlets Collaborators.fillsTypes_logging
  exact ⟨l, n, _, _, h, h', hops.symm, hinputs.length_eq.symm, hinputs, hcount.symm⟩

end TensorLowering
