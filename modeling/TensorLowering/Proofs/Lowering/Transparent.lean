import TensorLowering.Proofs.Lowering.EndToEnd
import TensorLowering.Proofs.Lowering.Mirror

/-!
# Lowering a graph is lowering its tree

With pure collaborators, lowering a function with its shared nodes and its one table of variables
cannot be told from the recursion over the tree that the function stands for
(`Walk.lower_transparent`): one succeeds exactly when the other does, with outputs that look the
same, and what was chosen for a call is what was chosen for each of its copies.

This is asked of functions in which binders are distinct, nothing occurs outside its scope, and all
dimensions are known. An unknown dimension would be a new symbolic variable in each copy.
-/

namespace TensorLowering

open Encoding Setting

variable {σ : Type}

/-! ### What is the same -/

/-- A lowered function is what its tree was lowered to. Placeholders of parameters are known by
their positions among the inputs. The calls are those of the first copies, to which every other
copy was lowered as well. -/
structure Lowered.Matches (old : Nat) (l : Lowered) (t : Expanded) : Prop where
  inputs : List.Forall₂ (Tensor.Looks old (l.inputs.map Tensor.id) (t.inputs.map Tensor.id))
    l.inputs t.inputs
  outputs : List.Forall₂ (Tensor.Looks old (l.inputs.map Tensor.id) (t.inputs.map Tensor.id))
    l.outputs t.outputs
  calls : List.Forall₂
    (LoweredCall.Looks old (l.inputs.map Tensor.id) (t.inputs.map Tensor.id))
    l.calls ((firstCopies t.copies).flatMap CallCopy.calls)
  ops : l.ops = (firstCopies t.copies).flatMap CallCopy.ops
  copies : ∀ c ∈ t.copies, c.IsNoted old (t.inputs.map Tensor.id) (firstCopies t.copies)

/-- Lowering a function and lowering its tree ended with the same fault, or with what matches. -/
inductive LowersToTree (old : Nat) : Outcome Lowered → Outcome Expanded → Prop where
  | ok {l : Lowered} {t : Expanded} : l.Matches old t → LowersToTree old (.ok l) (.ok t)
  | fault (e : Fault) : LowersToTree old (.fault e) (.fault e)
  | panic : LowersToTree old .panic .panic
  | stalled : LowersToTree old .stalled .stalled

private theorem LowersToTree.lifts (old : Nat) : Outcome.Lifts (LowersToTree old) :=
  ⟨.fault, .panic, .stalled⟩

/-! ### Where both begin -/

/-- Binding the same variables to tensors that look alike keeps tables alike. -/
theorem Progress.optionRel_bindAll {w : Correspondence} {vs : List Var}
    {tss tss' : List (List Tensor)} (h : List.Forall₂ w.SameAll tss tss') {p q : Progress} {x : Nat}
    (hx : Option.Rel w.SameAll (p.bound.lookup x) (q.bound.lookup x)) :
    Option.Rel w.SameAll ((p.bindAll (vs.zip tss)).bound.lookup x)
      ((q.bindAll (vs.zip tss')).bound.lookup x) := by
  induction h generalizing vs p q with
  | nil =>
    rw [List.zip_nil_right]
    exact hx
  | @cons ts ts' tss tss' hts _ ih =>
    cases vs with
    | nil => exact hx
    | cons v vs =>
      rw [List.zip_cons_cons, List.zip_cons_cons]
      exact ih (Walk.optionRel_lookup_cons hts fun _ => hx)

/-- The variables that are bound are those that were and those that are added. -/
private theorem Progress.lookup_bindAll_ne_none (xs : List (Var × List Tensor)) (p : Progress)
    {x : Nat} : (p.bindAll xs).bound.lookup x ≠ none ↔
      p.bound.lookup x ≠ none ∨ x ∈ xs.map fun v => v.1.id := by
  induction xs generalizing p with
  | nil => simp [bindAll]
  | cons v xs ih =>
    change ((p.bind v.1 v.2).bindAll xs).bound.lookup x ≠ none ↔ _
    rw [ih, Progress.lookup_bind, List.map_cons, List.mem_cons]
    by_cases hx : x = v.1.id
    · simp [hx]
    · simp [hx]

/-- At the start, the variables that are bound are the parameters. -/
private theorem Function.lookup_bindAll_ne_none (f : Function) {tss : List (List Tensor)}
    (hlen : tss.length = f.params.length) {x : Nat} :
    (Progress.start.bindAll (f.params.zip tss)).bound.lookup x ≠ none ↔ x ∈ f.paramIds := by
  rw [Progress.lookup_bindAll_ne_none, f.map_id_zip hlen]
  simp [Progress.start]

section

variable {d : Subject} {w : Correspondence} {tss tss' : List (List Tensor)}

/-- At the start, both sides know the parameters, and these are all that is used. -/
theorem Sees.start (hscoped : d.function.Scoped) (hlen : tss.length = d.function.params.length)
    (hsame : List.Forall₂ w.SameAll tss tss') :
    Sees d w [] (Progress.start.bindAll (d.function.params.zip tss)).bound
      (Progress.start.bindAll (d.function.params.zip tss')).bound d.function.body.Uses := by
  have hlen' : tss'.length = d.function.params.length := hsame.length_eq.symm.trans hlen
  refine ⟨fun x _ => ?_, fun x hx hbinds => ?_, fun x hx => ?_⟩
  · exact Progress.optionRel_bindAll hsame Option.Rel.none
  · rw [d.function.lookup_bindAll_ne_none hlen]
    obtain ⟨path, ys, hoccurs, hys⟩ := hx.exists_occurs d.function.body d.function.scope
    have hmem : x ∈ d.function.scope := hys (hscoped path ys x hoccurs hbinds)
    exact List.mem_reverse.mp hmem
  · exact Or.inl ((d.function.lookup_bindAll_ne_none hlen').mp hx)

/-- At the start nothing is remembered. -/
theorem Recalls.start (v : Walk σ) (k : Setting σ) (old : Nat) (xs : List (Var × List Tensor)) :
    Recalls d v k old w [] [] (Progress.start.bindAll xs) := by
  refine ⟨fun i hi => absurd hi List.not_mem_nil, fun i ts hi => ?_⟩
  rw [(Progress.start.bindAll_memo xs).1] at hi
  exact nomatch hi

/-- At the start the parameters are bound on both sides and no call was lowered. -/
theorem Accounts.start (old : Nat) (hlen : tss.length = d.function.params.length)
    (hlen' : tss'.length = d.function.params.length) :
    Accounts d old w (Progress.start.bindAll (d.function.params.zip tss')).bound []
      (Progress.start.bindAll (d.function.params.zip tss)) := by
  obtain ⟨-, hcalls, hops⟩ := Progress.start.bindAll_memo (d.function.params.zip tss)
  refine ⟨fun x hx => Or.inl ?_, fun c hc => absurd hc List.not_mem_nil, ?_, ?_⟩
  · rw [d.function.lookup_bindAll_ne_none hlen']
    exact (d.function.lookup_bindAll_ne_none hlen).mp hx
  · rw [hcalls]
    exact List.Forall₂.nil
  · rw [hops]
    rfl

end

/-! ### From end to end -/

/-- What was found in the end matches. -/
private theorem Mirrored.matches {d : Subject} {v : Walk σ} {k : Setting σ} {old : Nat}
    {path : List Nat} {env : List (Nat × List Tensor)} {s : Progress} {w w' : Correspondence}
    {inputs inputs' : List Tensor} {r : List Tensor × Progress}
    {r' : List Tensor × List CallCopy} (hw' : w'.Fixed old) (hinputs : w.SameAll inputs inputs')
    (hw : (w.withInputs inputs inputs' hinputs).Grows w')
    (hsame : (w.withInputs inputs inputs' hinputs).SameAll inputs inputs')
    (h : Mirrored d v k old path env [] s w' r r') :
    Lowered.Matches old ⟨inputs, r.1, r.2.calls.reverse, r.2.ops.reverse⟩
      ⟨inputs', r'.1, r'.2⟩ := by
  have hleft : w'.left.params = inputs.map Tensor.id := hw.left.params
  have hright : w'.right.params = inputs'.map Tensor.id := hw.right.params
  have hlooks {ts ts' : List Tensor} (hts : w'.SameAll ts ts') :
      List.Forall₂ (Tensor.Looks old (inputs.map Tensor.id) (inputs'.map Tensor.id)) ts ts' := by
    rw [← hleft, ← hright]
    exact hts.imp fun _ _ ht => hw'.looks ht
  have hcalls := h.accounts.calls
  have hcopies := h.copies
  rw [hleft, hright] at hcalls
  rw [hright] at hcopies
  exact ⟨hlooks (hw.sameAll hsame), hlooks h.same, hcalls, h.accounts.ops, hcopies⟩

/-- **Lowering a function is lowering its tree**, if no variable is bound twice or occurs outside
its scope and no dimension is unknown: with pure collaborators both end alike. -/
theorem Walk.lower_transparent (v : Walk σ) {f : Function} {m : Machine σ} {old : Nat}
    (hv : v.collaborators.Pure ⟨m.own, m.tuning.oracle⟩ old) (hcoherent : f.Coherent)
    (htidy : f.Tidy) (hknown : f.Known) (hbelow : f.Below old) (hm : old ≤ m.next) :
    LowersToTree old (v.lower f m).1 (v.lowerTree f m).1 := by
  obtain ⟨c, hc⟩ := hcoherent
  let d : Subject := ⟨f, c, hc, htidy.distinct⟩
  let k : Setting σ := ⟨m.own, m.tuning.oracle⟩
  let w : Correspondence := .start (fun _ _ => True) old m.next m.next hm hm
  have hw : w.Fixed old := ⟨rfl, fun _ _ => trivial, hm, hm⟩
  have hholds : k.Holds w m m := ⟨rfl, rfl, rfl, rfl, rfl, rfl⟩
  have htypes : f.params.map Var.type = f.params.map Var.type := rfl
  have hparams := SideBySide.bindParams_in (k.admits_known old) hw v .start .start
    (Or.inr rfl) htypes
    (fun x hx leaf hleaf =>
      ⟨x.type.hasUnknown_leaf (hknown.params x hx) hleaf, hbelow.params x hx leaf hleaf⟩) m m hholds
  refine hparams.outcomes (LowersToTree.lifts old) fun w₁ _ _ n n' _ hgrows hn hbound => ?_
  obtain ⟨hfixed, tss, tss', hlen, hsame, hnew, rfl, rfl⟩ := hbound
  -- from here on the placeholders of the parameters are known by their positions
  have hlen' : tss'.length = f.params.length := hsame.length_eq.symm.trans hlen
  let w₂ := w₁.withInputs tss.flatten tss'.flatten hnew.same
  have hfixed₂ : w₂.Fixed old := ⟨hfixed.numbers, hfixed.loose, hfixed.left, hfixed.right⟩
  have hsame₂ : List.Forall₂ w₂.SameAll tss tss' := hnew.sameAll_withInputs hsame
  have hholds₂ : k.Holds w₂ n n' := ⟨hn.own, hn.own', hn.oracle, hn.oracle', hn.next, hn.next'⟩
  have hvisit := sideBySide_visit (d := d) hv hknown hbelow f.body d.place_body hfixed₂
    (.start v k old (f.params.zip tss)) (.start old hlen hlen')
    (.start htidy.inScope hlen hsame₂) n n' hholds₂
  refine hvisit.outcomes (LowersToTree.lifts old) fun w₃ _ _ _ _ _ hgrows' _ hend => ?_
  exact .ok (hend.2.matches hend.1 hnew.same hgrows' hnew.same_withInputs)

/-! ### An example -/

/-- The definition of a sum that stands in two scopes: `let y = relu x in y + y` is one node, next
to a definition of `z` and under it. -/
def sharedSum (x y : Var) : Expr :=
  .letIn 1 y (.call 2 "relu" .empty [.var 0 x] x.type)
    (.call 3 "add" .empty [.var 4 y, .var 4 y] x.type)

/-- Both scopes. -/
def Function.twoScopes (x y z : Var) : Function :=
  .ofBody [x] (.tuple 6 [sharedSum x y, .letIn 5 z (.var 0 x) (sharedSum x y)])

/-- No part is a constant, and all calls have one type. -/
structure Expr.CallsOf (t : Ty) (e : Expr) : Prop where
  noConst : ∀ id u data, e ≠ .const id u data
  call : ∀ id op attrs args u, e = .call id op attrs args u → u = t

private theorem sharedSum_callsOf {x y : Var} {e : Expr} (h : e.Within (sharedSum x y)) :
    e.CallsOf x.type := by
  have hvar {i : Nat} {v : Var} (h : e.Within (.var i v)) : e.CallsOf x.type := by
    cases h
    exact ⟨nofun, nofun⟩
  have hcall {i : Nat} {op : String} {args : List Expr}
      (h : e.Within (.call i op .empty args x.type)) (hargs : ∀ a ∈ args, ∃ j v, a = .var j v) :
      e.CallsOf x.type := by
    cases h with
    | refl => exact ⟨nofun, fun _ _ _ _ _ heq => (Expr.call.inj heq).2.2.2.2.symm⟩
    | call _ _ _ _ ha h =>
      obtain ⟨j, v, rfl⟩ := hargs _ ha
      exact hvar h
  cases h with
  | refl => exact ⟨nofun, nofun⟩
  | letValue _ _ _ h => exact hcall h (by simp)
  | letBody _ _ _ h => exact hcall h (by simp)

/-- All its calls have the type of the first variable. -/
theorem Function.twoScopes_callsOf {x y z : Var} {e : Expr}
    (h : e.Within (twoScopes x y z).body) : e.CallsOf x.type := by
  cases h with
  | refl => exact ⟨nofun, nofun⟩
  | tuple _ ha h =>
    obtain rfl | ha := List.mem_cons.mp ha
    · exact sharedSum_callsOf h
    · obtain rfl := List.mem_singleton.mp ha
      cases h with
      | refl => exact ⟨nofun, nofun⟩
      | letValue _ _ _ h =>
        cases h
        exact ⟨nofun, nofun⟩
      | letBody _ _ _ h => exact sharedSum_callsOf h

private theorem sharedSum_occurs {x y : Var} {xs path ys : List Nat} {u : Nat} (hx : x.id ∈ xs)
    (h : (sharedSum x y).Occurs xs path ys u) : u ∈ ys := by
  have hvar {i : Nat} {v : Var} {e : Expr} {args : List Expr} {zs path : List Nat}
      (hv : v.id ∈ zs) (hargs : ∀ a ∈ args, ∃ j, a = .var j v) (ha : args[i]? = some e)
      (h : e.Occurs zs path ys u) : u ∈ ys := by
    obtain ⟨j, rfl⟩ := hargs e (List.mem_of_getElem? ha)
    cases h
    exact hv
  cases h with
  | letValue _ _ _ h =>
    cases h with
    | call _ _ _ _ ha h => exact hvar hx (by simp) ha h
  | letBody _ _ _ h =>
    cases h with
    | call _ _ _ _ ha h => exact hvar List.mem_cons_self (by simp) ha h

private theorem Function.twoScopes_tidy {x y z : Var} (hxy : x.id ≠ y.id) (hxz : x.id ≠ z.id)
    (hyz : y.id ≠ z.id) : (twoScopes x y z).Tidy := by
  -- the sum stands twice, but its definition is one node
  have hlets (i u : Nat) (h : (i, u) ∈ (twoScopes x y z).body.lets) :
      (i = 1 ∧ u = y.id) ∨ (i = 5 ∧ u = z.id) := by
    simpa [twoScopes, ofBody, sharedSum, Expr.lets, Expr.letsAll, or_comm, or_assoc] using h
  refine ⟨⟨List.pairwise_singleton _ _, ?_, ?_⟩, ?_⟩
  · intro i u h
    obtain ⟨-, rfl⟩ | ⟨-, rfl⟩ := hlets i u h
    · simpa [twoScopes, ofBody, paramIds] using hxy.symm
    · simpa [twoScopes, ofBody, paramIds] using hxz.symm
  · intro i j u hi hj
    obtain ⟨rfl, rfl⟩ | ⟨rfl, rfl⟩ := hlets i u hi
    · obtain ⟨rfl, -⟩ | ⟨-, heq⟩ := hlets j _ hj
      · rfl
      · exact absurd heq hyz
    · obtain ⟨-, heq⟩ | ⟨rfl, -⟩ := hlets j _ hj
      · exact absurd heq.symm hyz
      · rfl
  · intro path ys u h _
    have hscope : x.id ∈ (twoScopes x y z).scope := List.mem_cons_self
    cases h with
    | tuple _ hi h =>
      obtain rfl | hmem := List.mem_cons.mp (List.mem_of_getElem? hi)
      · exact sharedSum_occurs hscope h
      · obtain rfl := List.mem_singleton.mp hmem
        cases h with
        | letValue _ _ _ h =>
          cases h
          exact hscope
        | letBody _ _ _ h => exact sharedSum_occurs (List.mem_cons_of_mem _ hscope) h

/-- A node of it is known from its number. -/
theorem Function.twoScopes_coherent (x y z : Var) : (twoScopes x y z).Coherent := by
  let c : Catalogue := ⟨fun i => match i with
    | 0 => .var 0 x
    | 1 => sharedSum x y
    | 2 => .call 2 "relu" .empty [.var 0 x] x.type
    | 3 => .call 3 "add" .empty [.var 4 y, .var 4 y] x.type
    | 4 => .var 4 y
    | 5 => .letIn 5 z (.var 0 x) (sharedSum x y)
    | _ => (twoScopes x y z).body⟩
  have hsum : (sharedSum x y).In c := ⟨rfl, ⟨rfl, rfl, trivial⟩, rfl, rfl, rfl, trivial⟩
  exact ⟨c, rfl, hsum, ⟨rfl, rfl, hsum⟩, trivial⟩

/-- Its symbolic variables are those of the type. -/
theorem Function.twoScopes_below {x y z : Var} {old : Nat} (h : x.type.Below old) :
    (twoScopes x y z).Below old := by
  refine ⟨fun v hv => ?_, fun id t data hconst => ?_, fun id op attrs args t hcall => ?_⟩
  · obtain rfl := List.mem_singleton.mp hv
    exact h
  · exact absurd rfl ((twoScopes_callsOf hconst).noConst id t data)
  · rw [(twoScopes_callsOf hcall).call id op attrs args t rfl]
    exact h

theorem Walk.lower_transparent_shared :
    let type : Ty := .tensor ⟨[.var ⟨3, "n", .int32⟩, .imm 2 .int64], .float 32⟩
    let f := Function.twoScopes ⟨0, "x", type⟩ ⟨1, "y", type⟩ ⟨2, "z", type⟩
    let v (a : Aspect) : Walk Unit := ⟨.pointwise, ⟨.llvm, .empty⟩, true, a⟩
    let m : Machine Unit := .initial () 4
    (∃ l t, ((v .shapes).lower f m).1 = .ok l ∧ ((v .shapes).lowerTree f m).1 = .ok t ∧
      l.ops = ["relu", "add"] ∧ t.copies.map CallCopy.node = [2, 3, 2, 3]) ∧
      LowersToTree 4 ((v .shapes).lower f m).1 ((v .shapes).lowerTree f m).1 ∧
      LowersToTree 4 ((v .values).lower f m).1 ((v .values).lowerTree f m).1 := by
  intro type f v m
  have hcoherent : f.Coherent := Function.twoScopes_coherent _ _ _
  have htidy : f.Tidy := Function.twoScopes_tidy (by decide) (by decide) (by decide)
  have hbelow : type.Below 4 := by
    intro leaf hleaf
    obtain rfl := List.mem_singleton.mp hleaf
    intro e he
    obtain rfl | he := List.mem_cons.mp he
    · exact (by decide : 3 < 4)
    · obtain rfl := List.mem_singleton.mp he
      trivial
  have hf : f.Below 4 := Function.twoScopes_below hbelow
  have hknown : f.Known := by
    refine ⟨fun x hx => ?_, fun id t data h => ?_, fun id op attrs args t h => ?_⟩
    · obtain rfl := List.mem_singleton.mp hx
      rfl
    · exact absurd rfl ((Function.twoScopes_callsOf h).noConst id t data)
    · rw [(Function.twoScopes_callsOf h).call id op attrs args t rfl]
      rfl
  refine ⟨⟨_, _, rfl, rfl, rfl, rfl⟩, ?_, ?_⟩
  · exact Walk.lower_transparent (v .shapes) (Collaborators.pure_pointwise _ 4) hcoherent htidy
      hknown hf (Nat.le_refl 4)
  · exact Walk.lower_transparent (v .values) (Collaborators.pure_pointwise _ 4) hcoherent htidy
      hknown hf (Nat.le_refl 4)

end TensorLowering
