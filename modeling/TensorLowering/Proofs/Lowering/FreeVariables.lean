import TensorLowering.Proofs.Lowering.Visits

/-!
# Free variables

The walk has one table of variables, to which parameters and local definitions add, and from which
nothing is taken away at the end of a scope. So whether an occurrence of a variable is accepted does
not depend on the definitions around it, but on what was bound before it in the order of evaluation
(`Function.BoundBefore`). If a function can be lowered then all its occurrences are accepted, and
conversely, if each one has a binder before it then none is refused (`Walk.lower_boundBefore`). A
variable that nothing binds is refused; one that is bound elsewhere and used behind the scope is not
(`Walk.exists_lower_escaped`).

A node is visited once. When it is met again its variables are bound, since they were bound the
first time and nothing was taken away since (`Progress.Settled`).
-/

namespace TensorLowering

variable {σ : Type}

/-! ### Using and binding variables -/

/-- What happens to a variable while an expression is evaluated. -/
inductive VarStep where
  /-- An occurrence of the variable is evaluated. -/
  | use (x : Nat)
  /-- The variable is bound. -/
  | bind (x : Nat)
deriving DecidableEq

mutual

/-- What happens to variables while an expression is evaluated, in order. -/
def Expr.varSteps : Expr → List VarStep
  | .var _ v => [.use v.id]
  | .const .. => []
  | .call _ _ _ args _ => Expr.varStepsAll args
  | .tuple _ fields => Expr.varStepsAll fields
  | .proj _ e _ => e.varSteps
  | .letIn _ v value body => value.varSteps ++ .bind v.id :: body.varSteps

/-- The same for several expressions. -/
def Expr.varStepsAll : List Expr → List VarStep
  | [] => []
  | e :: es => e.varSteps ++ Expr.varStepsAll es

end

/-- Every variable that is used was known from the start or was bound before. -/
def Covered (known : Nat → Prop) (steps : List VarStep) : Prop :=
  ∀ before x after, steps = before ++ .use x :: after → known x ∨ .bind x ∈ before

/-- **Every occurrence comes after a binder of its variable**, in the order of evaluation: the
variable is a parameter, or a local definition has bound it. The occurrence need not be in the scope
of that definition. -/
def Function.BoundBefore (f : Function) : Prop := Covered (· ∈ f.paramIds) f.body.varSteps

section

variable {known known' : Nat → Prop} {as bs : List VarStep} {x : Nat}

/-- More variables may be known. -/
theorem Covered.mono (h : Covered known as) (hknown : ∀ x, known x → known' x) :
    Covered known' as := by
  intro before x after heq
  exact (h before x after heq).imp_left (hknown x)

private theorem covered_nil : Covered known [] := by
  intro before x after heq
  exact absurd heq (by simp)

private theorem covered_cons {step : VarStep} : Covered known (step :: as) ↔
    (∀ x, step = .use x → known x) ∧ Covered (fun x => known x ∨ .bind x = step) as := by
  constructor
  · intro h
    refine ⟨fun x hx => ?_, fun before x after heq => ?_⟩
    · exact (h [] x as (congrArg (· :: as) hx)).resolve_right List.not_mem_nil
    · have hx := h (step :: before) x after (congrArg (step :: ·) heq)
      rwa [List.mem_cons, ← or_assoc] at hx
  · rintro ⟨hstep, has⟩ before x after heq
    cases before with
    | nil => exact Or.inl (hstep x (List.cons.inj heq).1)
    | cons step' before =>
      obtain ⟨rfl, htail⟩ := List.cons.inj heq
      rw [List.mem_cons, ← or_assoc]
      exact has before x after htail

private theorem covered_append : Covered known (as ++ bs) ↔
    Covered known as ∧ Covered (fun x => known x ∨ .bind x ∈ as) bs := by
  induction as generalizing known with
  | nil => simp [covered_nil]
  | cons step as ih =>
    rw [List.cons_append, covered_cons, covered_cons, ih, and_assoc]
    simp only [List.mem_cons, or_assoc]

private theorem covered_use_iff : Covered known [.use x] ↔ known x := by
  simp [covered_cons, covered_nil]

private theorem covered_bind : Covered known [.bind x] := by
  simp [covered_cons, covered_nil]

end

/-! ### Variables of a graph -/

namespace Expr

variable {e : Expr} {es : List Expr}

private theorem varStepsAll_append (ds es : List Expr) :
    varStepsAll (ds ++ es) = varStepsAll ds ++ varStepsAll es := by
  induction ds with
  | nil => rfl
  | cons d ds ih => rw [List.cons_append, varStepsAll, varStepsAll, ih, List.append_assoc]

/-- The parts of a node come first. -/
private theorem exists_varSteps_eq_append (e : Expr) :
    ∃ rest, e.varSteps = varStepsAll e.parts ++ rest := by
  have hsingle (d : Expr) : varStepsAll [d] = d.varSteps := List.append_nil _
  cases e with
  | var id v => exact ⟨[.use v.id], rfl⟩
  | const => exact ⟨[], rfl⟩
  | call | tuple => exact ⟨[], (List.append_nil _).symm⟩
  | proj id e i => exact ⟨[], by rw [parts, hsingle, varSteps, List.append_nil]⟩
  | letIn id v value body => exact ⟨.bind v.id :: body.varSteps, by rw [parts, hsingle, varSteps]⟩

private theorem varSteps_subset_varStepsAll (h : e ∈ es) : e.varSteps ⊆ varStepsAll es := by
  obtain ⟨before, after, rfl⟩ := List.append_of_mem h
  rw [varStepsAll_append, varStepsAll]
  exact List.subset_append_of_subset_right _ (List.subset_append_left _ _)

/-- An occurrence is evaluated at some time. -/
private theorem Occurs.use_mem {xs path ys : List Nat} {x : Nat} (h : e.Occurs xs path ys x) :
    .use x ∈ e.varSteps := by
  induction h with
  | var id v xs => exact List.mem_singleton.mpr rfl
  | call id op attrs t ha _ ih => exact varSteps_subset_varStepsAll (List.mem_of_getElem? ha) ih
  | tuple id ha _ ih => exact varSteps_subset_varStepsAll (List.mem_of_getElem? ha) ih
  | proj id i _ ih => exact ih
  | letValue id v body _ ih => exact List.mem_append_left _ ih
  | letBody id v value _ ih => exact List.mem_append_right _ (List.mem_cons_of_mem _ ih)

mutual

/-- What is bound is bound by a local definition. -/
theorem exists_mem_lets_of_bind {x : Nat} : (e : Expr) → .bind x ∈ e.varSteps → ∃ i, (i, x) ∈ e.lets
  | .var .., h => nomatch List.mem_singleton.mp h
  | .const .., h => absurd h List.not_mem_nil
  | .call _ _ _ args _, h => exists_mem_letsAll_of_bind args h
  | .tuple _ fields, h => exists_mem_letsAll_of_bind fields h
  | .proj _ e _, h => exists_mem_lets_of_bind e h
  | .letIn id v value body, h => by
    rw [varSteps, List.mem_append, List.mem_cons] at h
    obtain h | heq | h := h
    · obtain ⟨i, hi⟩ := exists_mem_lets_of_bind value h
      exact ⟨i, List.mem_cons_of_mem _ (List.mem_append_left _ hi)⟩
    · obtain rfl := VarStep.bind.inj heq
      exact ⟨id, List.mem_cons_self⟩
    · obtain ⟨i, hi⟩ := exists_mem_lets_of_bind body h
      exact ⟨i, List.mem_cons_of_mem _ (List.mem_append_right _ hi)⟩

/-- The same for several expressions. -/
theorem exists_mem_letsAll_of_bind {x : Nat} : (es : List Expr) → .bind x ∈ varStepsAll es →
    ∃ i, (i, x) ∈ letsAll es
  | [], h => absurd h List.not_mem_nil
  | e :: es, h => by
    rw [varStepsAll, List.mem_append] at h
    obtain h | h := h
    · obtain ⟨i, hi⟩ := exists_mem_lets_of_bind e h
      exact ⟨i, List.mem_append_left _ hi⟩
    · obtain ⟨i, hi⟩ := exists_mem_letsAll_of_bind es h
      exact ⟨i, List.mem_append_right _ hi⟩

end

mutual

/-- If all occurrences are in scope then the binders come before them. -/
theorem covered_of_inScope {xs : List Nat} : (e : Expr) →
    (∀ path ys x, e.Occurs xs path ys x → x ∈ ys) → Covered (· ∈ xs) e.varSteps
  | .var id v, h => covered_use_iff.mpr (h [] xs v.id (.var id v xs))
  | .const .., _ => covered_nil
  | .call id op attrs args t, h =>
    coveredAll_of_inScope args fun _ _ hd path ys x hx => h _ ys x (.call id op attrs t hd hx)
  | .tuple id fields, h =>
    coveredAll_of_inScope fields fun _ _ hd path ys x hx => h _ ys x (.tuple id hd hx)
  | .proj id e i, h => covered_of_inScope e fun path ys x hx => h _ ys x (.proj id i hx)
  | .letIn id v value body, h => by
    have hvalue : Covered (· ∈ xs) value.varSteps :=
      covered_of_inScope value fun path ys x hx => h _ ys x (.letValue id v body hx)
    have hbody : Covered (· ∈ v.id :: xs) body.varSteps :=
      covered_of_inScope body fun path ys x hx => h _ ys x (.letBody id v value hx)
    rw [varSteps, List.append_cons, covered_append, covered_append]
    refine ⟨⟨hvalue, covered_bind⟩, hbody.mono fun x hx => ?_⟩
    obtain rfl | hx := List.mem_cons.mp hx
    · exact Or.inr (List.mem_append_right _ (List.mem_singleton.mpr rfl))
    · exact Or.inl hx

/-- The same for several expressions. -/
theorem coveredAll_of_inScope {xs : List Nat} : (es : List Expr) →
    (∀ (i : Nat) e, es[i]? = some e → ∀ path ys x, e.Occurs xs path ys x → x ∈ ys) →
    Covered (· ∈ xs) (varStepsAll es)
  | [], _ => covered_nil
  | e :: es, h => by
    have hfirst : Covered (· ∈ xs) e.varSteps := covered_of_inScope e (h 0 e rfl)
    have hrest : Covered (· ∈ xs) (varStepsAll es) :=
      coveredAll_of_inScope es fun i d hd => h (i + 1) d hd
    exact covered_append.mpr ⟨hfirst, hrest.mono fun x => Or.inl⟩

end

end Expr

/-- What occurs in a function in which binders come first is bound by it. -/
private theorem Function.BoundBefore.binds {f : Function} (h : f.BoundBefore)
    {path xs ys : List Nat} {x : Nat} (hx : f.body.Occurs xs path ys x) : f.Binds x := by
  obtain ⟨before, after, heq⟩ := List.append_of_mem hx.use_mem
  obtain hparam | hbound := h before x after heq
  · exact Or.inl hparam
  · refine Or.inr (Expr.exists_mem_lets_of_bind f.body ?_)
    rw [heq]
    exact List.mem_append_left _ hbound

/-! ### The table of variables -/

/-- The variable is in the table. -/
def Progress.Knows (s : Progress) (x : Nat) : Prop := s.bound.lookup x ≠ none

/-- What was done for a node that was lowered need not be done again: its variables are bound, and
so are those that it binds. -/
def Progress.Settled (k : Catalogue) (s : Progress) : Prop :=
  ∀ i, s.memo.lookup i ≠ none →
    Covered s.Knows (k.node i).varSteps ∧ ∀ x, .bind x ∈ (k.node i).varSteps → s.Knows x

/-- The steps were taken from one progress to the other. -/
structure Progress.Takes (k : Catalogue) (s : Progress) (steps : List VarStep) (s' : Progress) :
    Prop where
  covered : Covered s.Knows steps
  knows : ∀ x, s'.Knows x ↔ s.Knows x ∨ .bind x ∈ steps
  settled : s'.Settled k

namespace Progress

variable {s s₁ s' : Progress} {k : Catalogue} {as bs : List VarStep} {e : Expr}

private theorem knows_bind {v : Var} {ts : List Tensor} {x : Nat} :
    (s.bind v ts).Knows x ↔ s.Knows x ∨ x = v.id := by
  rw [Knows, lookup_bind, Knows]
  split
  · next heq => simp [heq]
  · next hne => simp [hne]

/-- What is settled stays so when more variables are bound. -/
theorem Settled.mono (h : s.Settled k) (hmemo : s'.memo = s.memo)
    (hknows : ∀ x, s.Knows x → s'.Knows x) : s'.Settled k := by
  intro i hi
  rw [hmemo] at hi
  exact ⟨(h i hi).1.mono hknows, fun x hx => hknows x ((h i hi).2 x hx)⟩

theorem Takes.nil (h : s.Settled k) : s.Takes k [] s := ⟨covered_nil, by simp, h⟩

/-- The steps that were taken depend only on what is remembered and bound. -/
theorem Takes.of_eq (h : s.Takes k as s₁) (hmemo : s'.memo = s₁.memo)
    (hbound : s'.bound = s₁.bound) : s.Takes k as s' := by
  have hknows x : s'.Knows x ↔ s₁.Knows x := by rw [Knows, Knows, hbound]
  exact ⟨h.covered, fun x => (hknows x).trans (h.knows x),
    h.settled.mono hmemo fun x => (hknows x).mpr⟩

/-- Steps that are taken after others were taken are taken after them. -/
theorem Takes.append (h : s.Takes k as s₁) (h' : s₁.Takes k bs s') : s.Takes k (as ++ bs) s' := by
  refine ⟨covered_append.mpr ⟨h.covered, ?_⟩, fun x => ?_, h'.settled⟩
  · exact h'.covered.mono fun x => (h.knows x).mp
  · rw [h'.knows, h.knows, List.mem_append, or_assoc]

/-- To bind a variable is a step. -/
theorem Takes.bind (h : s.Settled k) (v : Var) (ts : List Tensor) :
    s.Takes k [.bind v.id] (s.bind v ts) := by
  refine ⟨covered_bind, fun x => ?_, h.mono rfl fun x hx => knows_bind.mpr (Or.inl hx)⟩
  rw [knows_bind, List.mem_singleton, VarStep.bind.injEq]

private theorem Takes.use {x : Nat} (h : s.Settled k) (hx : s.Knows x) : s.Takes k [.use x] s :=
  ⟨covered_use_iff.mpr hx, by simp, h⟩

/-- A node that was lowered is passed over. -/
private theorem Takes.pass (h : s.Settled k) (he : e.In k) (hmemo : s.memo.lookup e.id ≠ none) :
    s.Takes k e.varSteps s := by
  obtain ⟨hcovered, hbinds⟩ := h e.id hmemo
  rw [he.node] at hcovered hbinds
  exact ⟨hcovered, fun x => (or_iff_left_of_imp (hbinds x)).symm, h⟩

/-- A node is left after its steps. -/
private theorem Takes.leave (h : s.Takes k e.varSteps s') (he : e.In k) (ts : List Tensor) :
    s.Takes k e.varSteps (s'.remember e.id ts) := by
  refine ⟨h.covered, h.knows, fun i hi => ?_⟩
  rw [lookup_remember] at hi
  split at hi
  · next heq =>
    rw [heq, he.node]
    exact ⟨h.covered.mono fun x hx => (h.knows x).mpr (Or.inl hx),
      fun x hx => (h.knows x).mpr (Or.inr hx)⟩
  · exact h.settled i hi

end Progress

/-! ### What a walk does with variables -/

namespace Walk

variable {w : Walk σ} {k : Catalogue} {s s' : Progress} {n n' : Machine σ} {ts : List Tensor}
  {vs : List Var}

/-- **Visiting an expression is taking its steps**, each of them or none. -/
theorem visitRule_takes (w : Walk σ) (k : Catalogue) : w.VisitRule
    (fun s e _ _ s' _ => e.In k → s.Settled k → s.Takes k e.varSteps s')
    (fun s e _ _ s' _ => e.In k → s.Settled k → s.Takes k e.varSteps s')
    (fun s es _ _ s' _ => Expr.InAll k es → s.Settled k → s.Takes k (Expr.varStepsAll es) s') where
  hit hmemo he hs := .pass hs he (by simp [hmemo])
  leave _ _ hnode he hs := (hnode he hs).leave he _
  var id v hlookup _ hs := .use hs (by simp [Progress.Knows, hlookup])
  const _ _ _ _ _ hs := .nil hs
  call _ _ _ _ _ _ hargs hfinish he hs := by
    obtain ⟨hmemo, hbound⟩ := finishCall_tables hfinish
    exact (hargs he.2 hs).of_eq hmemo hbound
  tuple _ _ _ hfields he hs := hfields he.2 hs
  proj _ _ _ _ he _ hin hs := he hin.2 hs
  letIn {s s₁ s' n n₁ n' us ts} id v value body _ hvalue _ hbody he hs := by
    have hfirst := hvalue he.2.1 hs
    have hbind := Progress.Takes.bind hfirst.settled v us
    exact hfirst.append (hbind.append (hbody he.2.2 hbind.settled))
  nil _ hs := .nil hs
  cons e es _ hfirst _ hrest he hs := by
    have htakes := hfirst he.1 hs
    exact htakes.append (hrest he.2 htakes.settled)

/-- Binding the parameters, they come into the table. -/
private theorem bindParams_knows {x : Nat} (h : w.bindParams s vs n = (.ok (ts, s'), n')) :
    s'.Knows x ↔ s.Knows x ∨ x ∈ vs.map (·.id) := by
  induction vs generalizing s n ts with
  | nil =>
    obtain ⟨-, rfl, -⟩ := Action.pure_pair_eq_ok_iff.mp h
    simp
  | cons v vs ih =>
    obtain ⟨us, n₁, -, hafter⟩ := Action.bind_eq_ok_iff.mp h
    obtain ⟨⟨rest, s₁⟩, n₂, hrest, hend⟩ := Action.bind_eq_ok_iff.mp hafter
    obtain ⟨-, rfl, rfl⟩ := Action.pure_pair_eq_ok_iff.mp hend
    rw [ih hrest, Progress.knows_bind, List.map_cons, List.mem_cons, or_assoc]

/-- When the body is entered, the parameters are in the table and no node was lowered. -/
private theorem bindParams_start {f : Function}
    (h : w.bindParams .start f.params n = (.ok (ts, s'), n')) :
    (∀ x, s'.Knows x ↔ x ∈ f.paramIds) ∧ s'.Settled k := by
  refine ⟨fun x => ?_, fun i hi => ?_⟩
  · rw [bindParams_knows h]
    simp [Progress.Knows, Progress.start, Function.paramIds]
  · rw [(bindParams_memo h).1] at hi
    exact absurd rfl hi

end Walk

namespace Visit

variable {w : Walk σ} {k : Catalogue} {a b : Visit σ}

/-- A visit that accepts all variables, as far as binders before it are concerned. -/
structure Provided (k : Catalogue) (a : Visit σ) : Prop where
  covered : Covered a.progress.Knows a.node.varSteps
  settled : a.progress.Settled k

/-- It leads to visits of the same kind. -/
private theorem Provided.leads (ha : a.Provided k) (hk : a.node.In k) (h : a.Leads w b) :
    b.Provided k := by
  cases h with
  | @part before after e us s n _ hparts hrun =>
    have hin : Expr.InAll k before := by
      refine Expr.inAll_iff.mpr fun d hd => ?_
      have hmem : d ∈ a.node.parts := hparts ▸ List.mem_append_left _ hd
      exact (Expr.within_of_mem_parts hmem).inCatalogue hk
    have htakes := (Walk.visitRule_takes w k).visitAll before hrun hin ha.settled
    obtain ⟨rest, hrest⟩ := a.node.exists_varSteps_eq_append
    have hcovered := ha.covered
    rw [hrest, hparts, Expr.varStepsAll_append, Expr.varStepsAll, covered_append, covered_append,
      covered_append] at hcovered
    exact ⟨hcovered.1.2.1.mono fun x => (htakes.knows x).mpr, htakes.settled⟩
  | @body id v value body us s n _ hnode hrun =>
    rw [hnode] at hk
    have htakes := (Walk.visitRule_takes w k).visit hrun hk.2.1 ha.settled
    have hbind := htakes.append (.bind htakes.settled v us)
    have hcovered := ha.covered
    rw [hnode, Expr.varSteps, List.append_cons, covered_append] at hcovered
    exact ⟨hcovered.2.mono fun x => (hbind.knows x).mpr, hbind.settled⟩

private theorem Provided.reaches (ha : a.Provided k) (hk : a.node.In k) (h : a.Reaches w b) :
    b.Provided k := by
  induction h with
  | refl => exact ha
  | tail hreach hlead ih => exact ih.leads ((Reaches.within hreach).inCatalogue hk) hlead

/-- An occurrence of a variable is accepted. -/
private theorem Provided.exists_ends_var (ha : a.Provided k) {id : Nat} {v : Var}
    (hnode : a.node = .var id v) (w : Walk σ) : ∃ ts s, a.Ends w ts s a.machine := by
  have hcovered := ha.covered
  rw [hnode, Expr.varSteps, covered_use_iff] at hcovered
  obtain ⟨ts, hts⟩ := Option.ne_none_iff_exists'.mp hcovered
  cases hmemo : a.progress.memo.lookup a.node.id with
  | some us => exact ⟨us, a.progress, ends_of_lookup hmemo⟩
  | none =>
    refine ⟨ts, a.progress.remember a.node.id ts, Missed.ends hmemo ?_⟩
    rw [hnode]
    simp only [Walk.lowerNode, hts]
    rfl

end Visit

/-! ### The theorem -/

/-- **An occurrence is accepted if and only if a binder comes before it.** A function in which some
occurrence comes before all binders of its variable cannot be lowered, in particular if a variable
occurs that nothing binds. If there are no such occurrences then none is refused, whatever becomes
of the lowering. There are none if all occurrences are in scope. -/
theorem Walk.lower_boundBefore (w : Walk σ) {f : Function} (hf : f.Coherent) (m : Machine σ) :
    (∀ l n, w.lower f m = (.ok l, n) → f.BoundBefore) ∧
      (∀ path ys x, f.body.Occurs f.scope path ys x → ¬f.Binds x →
        ∀ l n, w.lower f m ≠ (.ok l, n)) ∧
      (f.BoundBefore → ∀ a, w.Visits f m a → ∀ id v, a.node = .var id v →
        ∃ ts s, a.Ends w ts s a.machine) ∧
      ((∀ path ys x, f.body.Occurs f.scope path ys x → x ∈ ys) → f.BoundBefore) := by
  obtain ⟨k, hk⟩ := hf
  have hlower l n (h : w.lower f m = (.ok l, n)) : f.BoundBefore := by
    obtain ⟨⟨inputs, s⟩, m₁, hparams, hafter⟩ := Action.bind_eq_ok_iff.mp h
    obtain ⟨⟨outputs, s'⟩, m₂, hvisit, -⟩ := Action.bind_eq_ok_iff.mp hafter
    obtain ⟨hknows, hsettled⟩ := Walk.bindParams_start (k := k) hparams
    have htakes := (Walk.visitRule_takes w k).visit hvisit hk hsettled
    exact htakes.covered.mono fun x => (hknows x).mp
  refine ⟨hlower, fun path ys x hoccurs hbinds l n h => ?_, fun hbound a ha id v hnode => ?_,
    fun hscope => ?_⟩
  · exact hbinds ((hlower l n h).binds hoccurs)
  · obtain ⟨inputs, s, n, hparams, hreach⟩ := ha
    obtain ⟨hknows, hsettled⟩ := Walk.bindParams_start (k := k) hparams
    have hbody : Visit.Provided k ⟨s, n, f.body⟩ :=
      ⟨hbound.mono fun x => (hknows x).mpr, hsettled⟩
    exact (hbody.reaches hk hreach).exists_ends_var hnode w
  · exact (f.body.covered_of_inScope hscope).mono fun x => List.mem_reverse.mp

/-! ### Behind and before a scope -/

/-- A local definition, `let a = c in a`. -/
def localConst (a : Var) (t : TensorType) : Expr := .letIn 2 a (.const 0 t []) (.var 1 a)

/-- The variable occurs behind the scope of the definition: `(let a = c in a, a)`. -/
def Function.escaped (a : Var) (t : TensorType) : Function :=
  .ofBody [] (.tuple 4 [localConst a t, .var 3 a])

/-- The variable occurs before the scope of the definition: `(a, let a = c in a)`. -/
def Function.early (a : Var) (t : TensorType) : Function :=
  .ofBody [] (.tuple 4 [.var 3 a, localConst a t])

private theorem Function.coherent_of_fields (a : Var) (t : TensorType) {fields : List Expr}
    (h : ∀ e ∈ fields, e = localConst a t ∨ e = .var 3 a) :
    (Function.ofBody [] (.tuple 4 fields)).Coherent := by
  let node : Nat → Expr
    | 0 => .const 0 t []
    | 1 => .var 1 a
    | 2 => localConst a t
    | 3 => .var 3 a
    | _ => .tuple 4 fields
  refine ⟨⟨node⟩, rfl, Expr.inAll_iff.mpr fun e he => ?_⟩
  obtain rfl | rfl := h e he
  · exact ⟨rfl, rfl, rfl⟩
  · rfl

/-- Where the variable occurs before the definition the function cannot be lowered. Where it occurs
behind the scope, a binder comes before it. -/
theorem Walk.lower_boundBefore_early :
    let t : TensorType := ⟨[.imm 4 .int64], .float 32⟩
    let a : Var := ⟨0, "a", .tensor t⟩
    let w (aspect : Aspect) : Walk Unit := ⟨.pointwise, ⟨.llvm, .empty⟩, false, aspect⟩
    let m : Machine Unit := .initial () 0
    (∀ aspect l n, (w aspect).lower (.early a t) m ≠ (.ok l, n)) ∧
      (Function.escaped a t).BoundBefore := by
  intro t a w m
  have hearly : (Function.early a t).Coherent := Function.coherent_of_fields a t (by simp)
  have hescaped : (Function.escaped a t).Coherent := Function.coherent_of_fields a t (by simp)
  constructor
  · intro aspect l n h
    have hbound := ((w aspect).lower_boundBefore hearly m).1 l n h
    obtain hparam | hbind := hbound [] 0 _ rfl
    · exact absurd hparam List.not_mem_nil
    · exact absurd hbind List.not_mem_nil
  · have hok : ((w .values).lower (.escaped a t) m).1.isOk = true := by decide +kernel
    obtain ⟨l, n, h⟩ := Outcome.exists_of_isOk hok
    exact ((w .values).lower_boundBefore hescaped m).1 l n h

/-- A variable that occurs in the scope of no binder need not be refused: it occurs behind a local
definition. -/
theorem Walk.exists_lower_escaped : ∃ f : Function, f.Coherent ∧
    (∃ path ys x, f.body.Occurs f.scope path ys x ∧ x ∉ ys) ∧
    ∀ aspect, ∃ l n, Walk.lower ⟨.pointwise, ⟨.llvm, .empty⟩, false, aspect⟩ f
      (.initial () 0) = (.ok l, n) := by
  let t : TensorType := ⟨[.imm 4 .int64], .float 32⟩
  let a : Var := ⟨0, "a", .tensor t⟩
  have hcoherent : (Function.escaped a t).Coherent := Function.coherent_of_fields a t (by simp)
  have hoccurs : (Function.escaped a t).body.Occurs (Function.escaped a t).scope [1] [] 0 :=
    .tuple 4 (i := 1) rfl (.var 3 a [])
  refine ⟨.escaped a t, hcoherent, ⟨[1], [], 0, hoccurs, List.not_mem_nil⟩, fun aspect => ?_⟩
  apply Outcome.exists_of_isOk
  cases aspect with
  | values | shapes => decide +kernel

end TensorLowering
