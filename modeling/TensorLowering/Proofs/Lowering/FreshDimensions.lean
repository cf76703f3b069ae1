import TensorLowering.Proofs.Lowering.FirstFault

/-!
# Fresh dimensions

While values are lowered, the dimensions of parameters, of constants and of the results of calls are
brought into normal form, and each unknown one among them becomes a symbolic variable. A guard must
not take two such dimensions for one, so no variable may be made twice, and none may be one of the
function's own. That is so if the supply never goes back (`Action.Advances`) and is ahead of the
types of the function: each *place* at which dimensions are normalized takes numbers from a span of
the supply (`Walk.Takes`), and the spans of two places do not overlap (`Walk.Takes.apart`).

`Walk.lower_fresh` says what becomes of dimensions: of those of the parameters when a lowering ends
well, of unknown ones everywhere, and of those that do not fit.
-/

namespace TensorLowering

open TensorLowering.Action IndexExpr

variable {σ α β : Type}

/-! ### The supply goes forward -/

/-- An action that never goes back in the supply of numbers; its results have a property. -/
structure Action.Advances (P : α → Prop) (x : Action σ α) : Prop where
  next : ∀ m, m.next ≤ (x m).2.next
  result : ∀ m a, (x m).1 = .ok a → P a

private theorem next_noteTask (task : Task) (m : Machine σ) :
    (noteTask task m).2.next = m.next := by
  unfold noteTask
  split
  · split <;> rfl
  · rfl

private theorem next_noting (m : Machine σ) (target : Target) (outputs : List Tensor) :
    (m.noting target outputs).next = m.next := by
  unfold Machine.noting
  split
  · exact next_noteTask _ m
  · rfl

private theorem next_suspendIf_le {x : Action σ α} {suspended : Bool} {m : Machine σ}
    (h : ∀ thread, m.next ≤ (x { m with thread }).2.next) :
    m.next ≤ (suspendIf suspended x m).2.next := by
  cases suspended with
  | false => exact h m.thread
  | true => exact h m.thread.suspend

namespace Walk

section

variable {w : Walk σ} {site : CallSite} {call : Call} {c : Begun σ} {m n : Machine σ}
  {s s' : Progress} {a : EvalStep} {as : List EvalStep} {t : TensorType} {u : Tensor}

private theorem next_le_choose (hc : w.collaborators.Keeps Action.Advances) :
    m.next ≤ (w.choose call site m).2.next := by
  refine selecting_log
    (fun _ n => m.next ≤ n.next) [] (fun s hs => ?_) (fun is n his _ n' i hi hle => ?_)
    (Nat.le_refl _)
  · rw [candidates_of_some hs, bind_machine (fun _ _ => rfl)]
    exact (hc.strategy _ _ _ hs site.attrs site.inputs site.type w.target).next
      { m with thread := m.thread.enter w.target }
  · obtain ⟨own, s, hs, target, m₁, offer, n₁, hrun, sp, hsp, hi⟩ :=
      Collaborators.offers_of_candidates his i hi
    have hkeeps := (hc.strategy own _ s hs _ _ _ target).result m₁ offer (congrArg Prod.fst hrun)
    have hcompute := (hkeeps sp hsp i hi site.attrs site.inputs site.type).next n'
    refine Nat.le_trans hle ?_
    rw [computeTraced_eq]
    refine bind_machine_of (R := fun n => n'.next ≤ n.next) hcompute fun outputs _ => ?_
    exact Nat.le_trans hcompute (Nat.le_of_eq (next_noting _ w.target outputs).symm)

/-- While a call is lowered, the supply goes past the numbers that its type takes. -/
private theorem next_le_after (hw : w.aspect = .values) (hc : w.collaborators.Keeps Action.Advances)
    (h : c.node.call.type.dims.findSome? overflow? = none) :
    c.machine.next + unknowns c.node.call.type.dims ≤ (c.after w).next := by
  have hnormal := c.node.call.type.normalizes_normalize c.machine.lots c.machine.next
  cases hrun : c.node.call.type.normalize c.machine.lots c.machine.next with
  | error e =>
    obtain ⟨v, hv, -⟩ := Ty.normalize_eq_error_iff.mp hrun
    rw [h] at hv
    cases hv
  | ok r =>
    obtain ⟨type, next⟩ := r
    rw [hrun] at hnormal
    obtain ⟨-, -, rfl⟩ := hnormal.of_ok
    rw [after_of_ok hw hrun]
    let m : Machine σ := { c.machine with next := c.machine.next + unknowns c.node.call.type.dims }
    exact next_suspendIf_le (m := m) fun thread => next_le_choose (m := { m with thread }) hc

end

end Walk

/-- The dimensions that are normalized for a node itself: those of a constant, or of the result of a
call. -/
def Expr.ownDims : Expr → List IndexExpr
  | .const _ t _ => t.shape
  | .call _ _ _ _ type => type.dims
  | .var .. | .tuple .. | .proj .. | .letIn .. => []

/-- The placeholder of a normalized shape takes numbers for the unknown dimensions, and then one for
itself. -/
theorem normalized_eq_ok {name : String} {t : TensorType} {u : Tensor} {m n : Machine σ}
    (h : (takeNumbers (fun lots next => normalizeShape next t.shape lots) >>= fun shape =>
      placeholder name shape t.dtype : Action σ Tensor) m = (.ok u, n)) :
    t.shape.findSome? overflow? = none ∧
      u = .placeholder (m.next + unknowns t.shape) name (normalForms m.lots m.next t.shape)
        t.dtype ∧
      n = { m with next := m.next + unknowns t.shape + 1 } := by
  obtain ⟨shape, m₁, hshape, h⟩ := bind_eq_ok_iff.mp h
  obtain ⟨next, hnormal, rfl⟩ := takeNumbers_eq_ok_iff.mp hshape
  have hnormalizes := normalizes_normalizeShape m.lots m.next t.shape
  rw [hnormal] at hnormalizes
  obtain ⟨hfit, rfl, rfl⟩ := hnormalizes.of_ok
  cases h
  exact ⟨hfit, rfl, rfl⟩

namespace Walk

section

variable {w : Walk σ} (hw : w.aspect = .values) (hc : w.collaborators.Keeps Action.Advances)
  {m n n' n₁ n₂ : Machine σ} {s s' s₁ s₂ : Progress} {a b : EvalStep} {as : List EvalStep}
  {e : Expr} {ts : List Tensor}

include hw hc

private theorem next_le_finish (h : w.finish s e n = (.ok (ts, s'), n')) :
    n.next + unknowns e.ownDims ≤ n'.next := by
  cases e with
  | var id v =>
    simp only [finish] at h
    cases hbound : s.bound.lookup v.id with
    | some us =>
      rw [hbound] at h
      cases h
      exact Nat.le_refl _
    | none =>
      rw [hbound] at h
      cases h
  | const id t data =>
    obtain ⟨u, m, hu, hend⟩ := bind_eq_ok_iff.mp h
    rw [hw] at hu
    obtain ⟨-, -, rfl⟩ := normalized_eq_ok hu
    obtain ⟨-, -, rfl⟩ := pure_pair_eq_ok_iff.mp hend
    exact Nat.le_succ _
  | call id op attrs args type =>
    let c : Begun σ := ⟨⟨id, op, attrs, args, type⟩, args.flatMap s.kept, n⟩
    have hrun : w.finishCall s c.node.call c.inputs c.machine = (.ok (ts, s'), n') := h
    have hafter : n' = c.after w := (congrArg Prod.snd hrun).symm.trans (c.after_eq w s)
    have hends := callEnds_of_ok hrun
    have hfit : c.node.call.type.dims.findSome? overflow? = none := by
      generalize w.invocations c = invoked at hends
      cases hends with
      | values hconsults _ _ _ =>
        obtain ⟨_, hnormal, _⟩ := hconsults
        have hnormalizes := c.node.call.type.normalizes_normalize c.machine.lots c.machine.next
        exact (hnormal ▸ hnormalizes).of_ok.1
      | shapes hw' _ _ _ =>
        rw [hw] at hw'
        cases hw'
    rw [hafter]
    exact next_le_after hw hc hfit
  | tuple | letIn =>
    obtain ⟨-, -, rfl⟩ := pure_pair_eq_ok_iff.mp h
    exact Nat.le_refl _
  | proj id e i =>
    simp only [finish] at h
    cases hproject : projectTensors e.type (s.kept e) i with
    | ok us =>
      rw [hproject] at h
      cases h
      exact Nat.le_refl _
    | error why =>
      rw [hproject] at h
      cases h

/-- A step that ends well goes past the numbers that its node takes. -/
private theorem next_le_perform (h : w.perform s (.finish e) n = (.ok s', n')) :
    n.next + unknowns e.ownDims ≤ n'.next := by
  obtain ⟨⟨ts, s₁⟩, m, hfinish, hend⟩ := bind_eq_ok_iff.mp h
  obtain ⟨rfl, rfl⟩ := pure_eq_ok_iff.mp hend
  exact next_le_finish hw hc hfinish

private theorem next_le_performAll (h : w.performAll s as n = (.ok s', n')) : n.next ≤ n'.next := by
  induction as generalizing s n with
  | nil =>
    obtain ⟨rfl, rfl⟩ := pure_eq_ok_iff.mp h
    exact Nat.le_refl _
  | cons a as ih =>
    obtain ⟨s₁, n₁, hstep, hrest⟩ := bind_eq_ok_iff.mp h
    refine Nat.le_trans ?_ (ih hrest)
    cases a with
    | bind id v value body =>
      obtain ⟨rfl, rfl⟩ := pure_eq_ok_iff.mp hstep
      exact Nat.le_refl _
    | finish e => exact Nat.le_trans (Nat.le_add_right _ _) (next_le_perform hw hc hstep)

private theorem Reaches.next_le (h : w.Reaches s as n a s₁ n₁) : n.next ≤ n₁.next := by
  obtain ⟨before, after, -, hrun⟩ := h
  exact next_le_performAll hw hc hrun

/-- Of two steps that are reached one is done before the other, or they are one step. -/
private theorem Reaches.order (h : w.Reaches s as n a s₁ n₁) (h' : w.Reaches s as n b s₂ n₂) :
    a = b ∨ (∃ s' n', w.perform s₁ a n₁ = (.ok s', n') ∧ n'.next ≤ n₂.next) ∨
      ∃ s' n', w.perform s₂ b n₂ = (.ok s', n') ∧ n'.next ≤ n₁.next := by
  induction as generalizing s n with
  | nil => exact absurd h not_reaches_nil
  | cons c as ih =>
    obtain ⟨rfl, rfl, rfl⟩ | ⟨s', n', hstep, hrest⟩ := reaches_cons_iff.mp h
    · obtain ⟨rfl, -, -⟩ | ⟨s', n', hstep, hrest⟩ := reaches_cons_iff.mp h'
      · exact Or.inl rfl
      · exact Or.inr (Or.inl ⟨s', n', hstep, hrest.next_le hw hc⟩)
    · obtain ⟨rfl, rfl, rfl⟩ | ⟨s'', n'', hstep', hrest'⟩ := reaches_cons_iff.mp h'
      · exact Or.inr (Or.inr ⟨s', n', hstep, hrest.next_le hw hc⟩)
      · rw [hstep] at hstep'
        cases hstep'
        exact ih hrest hrest'

end

end Walk

/-! ### Placeholders of parameters -/

/-- The tensors of the parameters, from left to right and each in depth-first order. -/
def Function.paramLeaves (f : Function) : List TensorType := f.params.flatMap fun v => v.type.leaves

/-- How many numbers placeholders take: for their unknown dimensions, and one for each of them. -/
def numbersTaken : List TensorType → Nat
  | [] => 0
  | t :: ts => unknowns t.shape + 1 + numbersTaken ts

/-- Placeholders that were made one after the other, from the next number on and with these lots. -/
inductive Placed (lots : Nat → Nat) : Nat → List TensorType → List Tensor → Prop where
  | nil {next : Nat} : Placed lots next [] []
  | cons {next : Nat} {t : TensorType} {ts : List TensorType} {us : List Tensor} {name : String} :
      t.shape.findSome? overflow? = none → Placed lots (next + (unknowns t.shape + 1)) ts us →
      Placed lots next (t :: ts)
        (.placeholder (next + unknowns t.shape) name (normalForms lots next t.shape) t.dtype :: us)

section

variable {lots : Nat → Nat} {next : Nat} {ts ts' : List TensorType} {us us' : List Tensor}
  {t : TensorType} {u : Tensor} {i j : Nat} {m n : Machine σ}

private theorem numbersTaken_append (ts ts' : List TensorType) :
    numbersTaken (ts ++ ts') = numbersTaken ts + numbersTaken ts' := by
  induction ts with
  | nil => exact (Nat.zero_add _).symm
  | cons t ts ih => rw [List.cons_append, numbersTaken, numbersTaken, ih, ← Nat.add_assoc]

private theorem numbersTaken_mono (h : ts <+: ts') : numbersTaken ts ≤ numbersTaken ts' := by
  obtain ⟨rest, rfl⟩ := h
  rw [numbersTaken_append]
  exact Nat.le_add_right _ _

private theorem numbersTaken_take_succ (h : ts[j]? = some t) :
    numbersTaken (ts.take (j + 1)) = numbersTaken (ts.take j) + (unknowns t.shape + 1) := by
  rw [List.take_add_one, h, numbersTaken_append]
  rfl

private theorem numbersTaken_take_le (h : ts[i]? = some t) (hij : i < j) :
    numbersTaken (ts.take i) + (unknowns t.shape + 1) ≤ numbersTaken (ts.take j) := by
  rw [← numbersTaken_take_succ h]
  exact numbersTaken_mono (List.take_prefix_take_left hij)

/-- Placeholders that were made behind others were made one after the other. -/
theorem Placed.append (h : Placed lots next ts us)
    (h' : Placed lots (next + numbersTaken ts) ts' us') :
    Placed lots next (ts ++ ts') (us ++ us') := by
  induction h with
  | nil => exact h'
  | cons hfit _ ih =>
    rw [numbersTaken, ← Nat.add_assoc] at h'
    exact .cons hfit (ih h')

/-- Each placeholder has taken the numbers after those of the ones before it. -/
private theorem Placed.shape_eq (h : Placed lots next ts us) (ht : ts[j]? = some t)
    (hu : us[j]? = some u) : t.shape.findSome? overflow? = none ∧
      u.shape = normalForms lots (next + numbersTaken (ts.take j)) t.shape := by
  induction h generalizing j with
  | nil => cases ht
  | @cons next t₁ ts us name hfit _ ih =>
    cases j with
    | zero =>
      obtain rfl := Option.some.inj ht
      obtain rfl := Option.some.inj hu
      exact ⟨hfit, rfl⟩
    | succ j =>
      rw [List.take_succ_cons, numbersTaken, ← Nat.add_assoc]
      exact ih ht hu

private theorem placed_inputTensors {name : String}
    (h : inputTensors .values name ts m = (.ok us, n)) :
    Placed m.lots m.next ts us ∧ n = { m with next := m.next + numbersTaken ts } := by
  induction ts generalizing us m with
  | nil =>
    obtain ⟨rfl, rfl⟩ := pure_eq_ok_iff.mp h
    exact ⟨.nil, rfl⟩
  | cons t ts ih =>
    obtain ⟨u, m₁, hu, h⟩ := bind_eq_ok_iff.mp h
    obtain ⟨rest, m₂, hrest, h⟩ := bind_eq_ok_iff.mp h
    obtain ⟨rfl, rfl⟩ := pure_eq_ok_iff.mp h
    obtain ⟨hfit, rfl, rfl⟩ := normalized_eq_ok hu
    obtain ⟨hplaced, rfl⟩ := ih hrest
    refine ⟨.cons hfit hplaced, ?_⟩
    rw [numbersTaken, ← Nat.add_assoc, ← Nat.add_assoc]

private theorem Walk.placed_bindParams {w : Walk σ} (hw : w.aspect = .values) {vs : List Var}
    {s s' : Progress} (h : w.bindParams s vs m = (.ok (us, s'), n)) :
    Placed m.lots m.next (vs.flatMap fun v => v.type.leaves) us ∧
      n = { m with next := m.next + numbersTaken (vs.flatMap fun v => v.type.leaves) } := by
  induction vs generalizing us s m with
  | nil =>
    obtain ⟨rfl, -, rfl⟩ := pure_pair_eq_ok_iff.mp h
    exact ⟨.nil, rfl⟩
  | cons v vs ih =>
    obtain ⟨first, m₁, hfirst, h⟩ := bind_eq_ok_iff.mp h
    obtain ⟨⟨rest, s₁⟩, m₂, hrest, h⟩ := bind_eq_ok_iff.mp h
    obtain ⟨rfl, rfl, rfl⟩ := pure_pair_eq_ok_iff.mp h
    rw [hw] at hfirst
    obtain ⟨hplaced, rfl⟩ := placed_inputTensors hfirst
    obtain ⟨hplaced', rfl⟩ := ih hrest
    rw [List.flatMap_cons, numbersTaken_append, ← Nat.add_assoc]
    exact ⟨hplaced.append hplaced', rfl⟩

end

/-! ### Normal dimensions, one by one -/

/-- **What becomes of a dimension.** A number becomes an `int32` immediate of the same value, which
fits, an unknown dimension becomes an `int32` variable, and any other one stays. -/
inductive IndexExpr.Becomes : IndexExpr → IndexExpr → Prop where
  | imm {n : Int} {t : DataType} :
      -2147483648 ≤ n → n ≤ 2147483647 → Becomes (.imm n t) (.imm n .int32)
  | unknown {x : SymVar} : x.dtype = .int32 → Becomes .unknown (.var x)
  | other {e : IndexExpr} : (∀ n t, e ≠ .imm n t) → e ≠ .unknown → Becomes e e

/-- The placeholder of a tensor: it has the rank and the element type of the tensor. -/
inductive TensorType.Becomes (t : TensorType) : Tensor → Prop where
  | placeholder {id : Nat} {name : String} {shape : List IndexExpr} :
      List.Forall₂ IndexExpr.Becomes t.shape shape →
      TensorType.Becomes t (.placeholder id name shape t.dtype)

section

variable {dims : List IndexExpr} {i j : Nat}

private theorem IndexExpr.becomes_normalForm {e : IndexExpr} (h : e.overflow? = none)
    (number : SymId) : e.Becomes (e.normalForm number) := by
  cases e with
  | imm n t =>
    have hfit : InHalfWord n := by
      by_contra hn
      rw [overflow?, if_neg hn] at h
      cases h
    exact .imm (by omega) (by omega)
  | unknown => exact .unknown rfl
  | var | arith | compare | and | or | not =>
    refine .other (fun n t he => ?_) fun he => ?_
    all_goals cases he

private theorem IndexExpr.becomes_normalForms (lots : Nat → Nat) (next : Nat)
    (h : dims.findSome? overflow? = none) :
    List.Forall₂ Becomes dims (normalForms lots next dims) := by
  induction dims generalizing next with
  | nil => exact .nil
  | cons e es ih =>
    rw [List.findSome?_eq_none_iff] at h
    refine .cons (becomes_normalForm (h e List.mem_cons_self) _) (ih _ ?_)
    exact List.findSome?_eq_none_iff.mpr fun d hd => h d (List.mem_cons_of_mem e hd)

private theorem Placed.becomes {lots : Nat → Nat} {next : Nat} {ts : List TensorType}
    {us : List Tensor} (h : Placed lots next ts us) : List.Forall₂ TensorType.Becomes ts us := by
  induction h with
  | nil => exact .nil
  | cons hfit _ ih => exact .cons (.placeholder (becomes_normalForms lots _ hfit)) ih

/-- Between two unknown dimensions the number goes up. -/
private theorem IndexExpr.unknowns_take_lt (hi : dims[i]? = some .unknown) (hij : i < j) :
    unknowns (dims.take i) < unknowns (dims.take j) := by
  have hsucc : unknowns (dims.take (i + 1)) = unknowns (dims.take i) + 1 := by
    rw [List.take_add_one, hi, unknowns_append]
    rfl
  have hle : unknowns (dims.take (i + 1)) ≤ unknowns (dims.take j) :=
    (List.take_sublist_take_left hij).countP_le
  omega

private theorem IndexExpr.unknowns_take_lt_all (hi : dims[i]? = some .unknown) :
    unknowns (dims.take i) < unknowns dims := by
  have hlt : i < dims.length := (List.getElem?_eq_some_iff.mp hi).1
  have h := unknowns_take_lt hi hlt
  rwa [List.take_length] at h

private theorem IndexExpr.getElem?_normalForms_unknown (lots : Nat → Nat) (next : Nat)
    (hi : dims[i]? = some .unknown) :
    (normalForms lots next dims)[i]? = some (.var (unknownDimension
      ⟨lots (next + unknowns (dims.take i)), next + unknowns (dims.take i)⟩)) := by
  rw [getElem?_normalForms, hi]
  rfl

end

/-! ### Places -/

/-- Where dimensions are normalized: at a tensor of the parameters, or at a node. -/
inductive DimensionPlace where
  | input (position : Nat)
  | node (id : Nat)

namespace Walk

variable {w : Walk σ} {f : Function} {m n : Machine σ} {p q : DimensionPlace} {next next' : Nat}
  {dims dims' : List IndexExpr}

/-- **The dimensions at a place are normalized**, and this becomes of them: those of a parameter in
the inputs of a lowering that ends well, those of a constant in its tensor, and those of the result
of a call in the type that its strategy is run with. -/
inductive Normalized (w : Walk σ) (f : Function) (m : Machine σ) :
    DimensionPlace → List IndexExpr → List IndexExpr → Prop where
  | input {j : Nat} {t : TensorType} {u : Tensor} {l : Lowered} {n : Machine σ} :
      w.lower f m = (.ok l, n) → f.paramLeaves[j]? = some t → l.inputs[j]? = some u →
      Normalized w f m (.input j) t.shape u.shape
  | const {inputs : List Tensor} {s s₁ : Progress} {n₀ n₁ n₂ : Machine σ} {id : Nat}
      {t : TensorType} {data : List UInt8} {u : Tensor} :
      w.bindParams .start f.params m = (.ok (inputs, s), n₀) →
      w.Reaches s f.evalSteps n₀ (.finish (.const id t data)) s₁ n₁ →
      constantTensor w.aspect t n₁ = (.ok u, n₂) → Normalized w f m (.node id) t.shape u.shape
  | call {c : Begun σ} {type : Ty} {next : Nat} : w.Begins f m c →
      c.node.call.type.normalize c.machine.lots c.machine.next = .ok (type, next) →
      Normalized w f m (.node c.node.id) c.node.call.type.dims type.dims

/-- A place takes numbers for some dimensions from here on. -/
inductive Takes (w : Walk σ) (f : Function) (m : Machine σ) :
    DimensionPlace → Nat → List IndexExpr → Prop where
  | input {j : Nat} {t : TensorType} : f.paramLeaves[j]? = some t →
      Takes w f m (.input j) (m.next + numbersTaken (f.paramLeaves.take j)) t.shape
  | node {inputs : List Tensor} {s s₁ : Progress} {n₀ n₁ : Machine σ} {e : Expr} :
      w.bindParams .start f.params m = (.ok (inputs, s), n₀) →
      w.Reaches s f.evalSteps n₀ (.finish e) s₁ n₁ →
      Takes w f m (.node e.id) n₁.next e.ownDims

/-- What is normalized fits, and gets the numbers that its place takes. -/
private theorem Normalized.takes (hw : w.aspect = .values) (hf : f.Coherent)
    (h : w.Normalized f m p dims dims') : dims.findSome? overflow? = none ∧
      ∃ lots next, w.Takes f m p next dims ∧ dims' = normalForms lots next dims := by
  cases h with
  | input hlower ht hu =>
    obtain ⟨⟨inputs, s⟩, n₀, hparams, hrest⟩ := bind_eq_ok_iff.mp hlower
    obtain ⟨⟨outputs, s'⟩, n₁, -, hend⟩ := bind_eq_ok_iff.mp hrest
    obtain ⟨rfl, -⟩ := pure_eq_ok_iff.mp hend
    obtain ⟨hfit, hshape⟩ := (placed_bindParams hw hparams).1.shape_eq ht hu
    exact ⟨hfit, _, _, .input ht, hshape⟩
  | const hparams hreach hrun =>
    rw [hw] at hrun
    obtain ⟨hfit, rfl, -⟩ := normalized_eq_ok hrun
    exact ⟨hfit, _, _, .node hparams hreach, rfl⟩
  | @call c type next hbegins hnormal =>
    obtain ⟨inputs, s, n₀, s₁, hparams, hreach, -⟩ := (begins_iff_reaches hf).mp hbegins
    obtain ⟨hfit, hdims, -⟩ :=
      (hnormal ▸ c.node.call.type.normalizes_normalize c.machine.lots c.machine.next).of_ok
    exact ⟨hfit, _, c.machine.next, .node (e := c.node.expr) hparams hreach, hdims⟩

section

variable (hw : w.aspect = .values) (hc : w.collaborators.Keeps Action.Advances)

include hw hc

/-- The numbers are new ones. -/
private theorem Takes.next_le (h : w.Takes f m p next dims) : m.next ≤ next := by
  cases h with
  | input => exact Nat.le_add_right _ _
  | @node inputs s s₁ n₀ n₁ e hparams hreach =>
    have hstart : n₀.next = m.next + numbersTaken f.paramLeaves :=
      congrArg Machine.next (placed_bindParams hw hparams).2
    have hle := hreach.next_le hw hc
    omega

/-- Parameters take their numbers before any node does. -/
private theorem next_le_of_input {inputs : List Tensor} {s s₁ : Progress} {n₀ n₁ : Machine σ}
    {a : EvalStep} {j : Nat} {t : TensorType} (ht : f.paramLeaves[j]? = some t)
    (hparams : w.bindParams .start f.params m = (.ok (inputs, s), n₀))
    (hreach : w.Reaches s f.evalSteps n₀ a s₁ n₁) :
    m.next + numbersTaken (f.paramLeaves.take j) + unknowns t.shape ≤ n₁.next := by
  have hstart : n₀.next = m.next + numbersTaken f.paramLeaves :=
    congrArg Machine.next (placed_bindParams hw hparams).2
  have hle := hreach.next_le hw hc
  have htaken := numbersTaken_mono (List.take_prefix (j + 1) f.paramLeaves)
  rw [numbersTaken_take_succ ht] at htaken
  omega

/-- **Two places take numbers apart from each other.** -/
theorem Takes.apart (h : w.Takes f m p next dims) (h' : w.Takes f m q next' dims') (hpq : p ≠ q) :
    next + unknowns dims ≤ next' ∨ next' + unknowns dims' ≤ next := by
  cases h with
  | @input i t ht =>
    cases h' with
    | @input j t' ht' =>
      obtain hij | rfl | hji := Nat.lt_trichotomy i j
      · have hle := numbersTaken_take_le ht hij
        exact Or.inl (by omega)
      · exact absurd rfl hpq
      · have hle := numbersTaken_take_le ht' hji
        exact Or.inr (by omega)
    | node hparams hreach => exact Or.inl (next_le_of_input hw hc ht hparams hreach)
  | node hparams hreach =>
    cases h' with
    | input ht => exact Or.inr (next_le_of_input hw hc ht hparams hreach)
    | node hparams' hreach' =>
      rw [hparams] at hparams'
      cases hparams'
      obtain heq | ⟨s₃, n₃, hstep, hle⟩ | ⟨s₃, n₃, hstep, hle⟩ := hreach.order hw hc hreach'
      · exact absurd (congrArg (fun e => DimensionPlace.node e.id) (EvalStep.finish.inj heq)) hpq
      · exact Or.inl (Nat.le_trans (next_le_perform hw hc hstep) hle)
      · exact Or.inr (Nat.le_trans (next_le_perform hw hc hstep) hle)

omit hw hc in
/-- A place takes numbers once. -/
private theorem Takes.unique (hf : f.Coherent) (h : w.Takes f m p next dims)
    (h' : w.Takes f m p next' dims') : next = next' ∧ dims = dims' := by
  cases h with
  | input ht =>
    cases h' with
    | input ht' =>
      rw [ht] at ht'
      cases ht'
      exact ⟨rfl, rfl⟩
  | @node inputs s s₁ n₀ n₁ e hparams hreach =>
    generalize hplace : DimensionPlace.node e.id = place at h'
    cases h' with
    | input => cases hplace
    | @node inputs' s' s₂ n₀' n₂ e' hparams' hreach' =>
      rw [hparams] at hparams'
      cases hparams'
      -- in a graph a node is known from its number
      have heq : e = e' := by
        obtain ⟨k, hk⟩ := hf
        have hwithin := f.within_of_mem_evalSteps hreach.mem
        have hwithin' := f.within_of_mem_evalSteps hreach'.mem
        exact (hwithin.inCatalogue hk).eq_of_id_eq (hwithin'.inCatalogue hk)
          (DimensionPlace.node.inj hplace)
      subst heq
      rw [hreach.unique f.nodup_evalSteps.of_map hreach']
      exact ⟨rfl, rfl⟩

end

end Walk

/-! ### Variables of a function -/

/-- The symbolic variable occurs in the expression. -/
def IndexExpr.Uses (x : SymVar) : IndexExpr → Prop
  | .imm .. | .unknown => False
  | .var v => v = x
  | .arith _ lhs rhs | .compare _ lhs rhs | .and lhs rhs | .or lhs rhs => Uses x lhs ∨ Uses x rhs
  | .not operand => Uses x operand

/-- The symbolic variable occurs in the type. -/
def Ty.Uses (x : SymVar) (t : Ty) : Prop := ∃ leaf ∈ t.leaves, ∃ e ∈ leaf.shape, e.Uses x

/-- A type that stands in a function: that of a variable, of a constant, of the result of a call or
of the function itself. -/
inductive Function.HasType (f : Function) : Ty → Prop where
  | ofVar {v : Var} : f.Mentions v → HasType f v.type
  | ofConst {id : Nat} {t : TensorType} {data : List UInt8} :
      (Expr.const id t data).Within f.body → HasType f (.tensor t)
  | ofCall {c : CallNode} : c.expr.Within f.body → HasType f c.call.type
  | result : HasType f f.returnType

private theorem IndexExpr.Below.lt_of_uses {b : Nat} {x : SymVar} {e : IndexExpr} (h : e.Below b)
    (hx : e.Uses x) : x.id.draw < b := by
  induction e with
  | imm | unknown => exact hx.elim
  | var v =>
    obtain rfl := hx
    exact h
  | arith _ lhs rhs ihl ihr | compare _ lhs rhs ihl ihr | and lhs rhs ihl ihr
  | or lhs rhs ihl ihr => exact hx.elim (ihl h.1) (ihr h.2)
  | not operand ih => exact ih h hx

private theorem Ty.Below.lt_of_uses {b : Nat} {x : SymVar} {t : Ty} (h : t.Below b)
    (hx : t.Uses x) : x.id.draw < b := by
  obtain ⟨leaf, hleaf, e, he, hx⟩ := hx
  exact (h leaf hleaf e he).lt_of_uses hx

/-! ### The theorem -/

/-- A number that does not fit into 32 bits stands among some dimensions. -/
def Overflows (v : Int) (dims : List IndexExpr) : Prop :=
  ¬(-2147483648 ≤ v ∧ v ≤ 2147483647) ∧ ∃ t, IndexExpr.imm v t ∈ dims

private theorem overflows_of_findSome? {v : Int} {dims : List IndexExpr}
    (h : dims.findSome? overflow? = some v) : Overflows v dims := by
  obtain ⟨e, he, hv⟩ := List.exists_of_findSome?_eq_some h
  cases e with
  | imm n t =>
    by_cases hn : InHalfWord n
    · rw [overflow?, if_pos hn] at hv
      cases hv
    · rw [overflow?, if_neg hn] at hv
      obtain rfl := Option.some.inj hv
      exact ⟨by omega, t, he⟩
  | var | unknown | arith | compare | and | or | not => cases hv

namespace Walk

variable {w : Walk σ} {f : Function} {m n : Machine σ} {p q : DimensionPlace}
  {dims dims' : List IndexExpr}

/-- This variable is what becomes of an unknown dimension, the one at a position of a place. -/
def Makes (w : Walk σ) (f : Function) (m : Machine σ) (p : DimensionPlace) (i : Nat) (x : SymVar) :
    Prop :=
  ∃ dims dims', w.Normalized f m p dims dims' ∧ dims[i]? = some .unknown ∧ dims'[i]? = some (.var x)

/-- The number of a variable that is made lies in the span of its place. -/
theorem Makes.exists_takes (hw : w.aspect = .values) (hf : f.Coherent) {i : Nat} {x : SymVar}
    (h : w.Makes f m p i x) : ∃ next dims, w.Takes f m p next dims ∧ dims[i]? = some .unknown ∧
      ∃ lot, x = unknownDimension ⟨lot, next + unknowns (dims.take i)⟩ := by
  obtain ⟨dims, dims', hnormalized, hi, hx⟩ := h
  obtain ⟨-, lots, next, htakes, rfl⟩ := hnormalized.takes hw hf
  rw [getElem?_normalForms_unknown lots next hi] at hx
  exact ⟨next, dims, htakes, hi, _, (IndexExpr.var.inj (Option.some.inj hx)).symm⟩

section

variable (hw : w.aspect = .values) (hc : w.collaborators.Keeps Action.Advances) (hf : f.Coherent)
  {i j : Nat} {x : SymVar}

include hw hc hf

/-- A variable is made for one dimension only. -/
private theorem Makes.unique (h : w.Makes f m p i x) (h' : w.Makes f m q j x) : p = q ∧ i = j := by
  obtain ⟨next, dims, htakes, hi, lot, hx⟩ := h.exists_takes hw hf
  obtain ⟨next', dims', htakes', hj, lot', hx'⟩ := h'.exists_takes hw hf
  have hid : next + unknowns (dims.take i) = next' + unknowns (dims'.take j) :=
    congrArg (fun x => x.id.draw) (hx.symm.trans hx')
  have hlt := unknowns_take_lt_all hi
  have hlt' := unknowns_take_lt_all hj
  by_cases hpq : p = q
  · subst hpq
    obtain ⟨rfl, rfl⟩ := htakes.unique hf htakes'
    refine ⟨rfl, ?_⟩
    -- within a place the numbers go up
    obtain hij | hij | hji := Nat.lt_trichotomy i j
    · have hup := unknowns_take_lt hi hij
      omega
    · exact hij
    · have hup := unknowns_take_lt hj hji
      omega
  · obtain hle | hle := htakes.apart hw hc htakes' hpq <;> omega

/-- A variable that is made is none of those that were there before. -/
private theorem Makes.next_le (h : w.Makes f m p i x) : m.next ≤ x.id.draw := by
  obtain ⟨next, dims, htakes, -, lot, rfl⟩ := h.exists_takes hw hf
  exact Nat.le_trans (htakes.next_le hw hc) (Nat.le_add_right _ _)

end

/-- A parameter that does not fit ends the lowering before any call is begun. -/
private theorem lower_of_overflow (hw : w.aspect = .values) {v : Int}
    (h : f.paramDims.findSome? overflow? = some v) :
    (w.lower f m).1 = .fault (.dimensionOverflow v) ∧ ∀ c, ¬w.Begins f m c := by
  have hchecks := w.checks_bindParams hw f.params .start m
  rw [Function.paramDims] at h
  rw [h] at hchecks
  have hparams : w.bindParams .start f.params m = (.fault (.dimensionOverflow v), _) :=
    Prod.ext hchecks rfl
  refine ⟨congrArg Prod.fst (bind_eq_fault_iff.mpr (Or.inl hparams)), ?_⟩
  rintro c ⟨a, ⟨inputs, s, n, hran, -⟩, -⟩
  rw [hran] at hparams
  cases hparams

private theorem paramDims_eq (f : Function) :
    f.paramDims = f.paramLeaves.flatMap TensorType.shape :=
  List.flatMap_assoc.symm

/-- A call tells a dimension that does not fit because a collaborator does, or because it stands in
the type of the call. -/
private theorem CallFails.overflow {c : Begun σ} {v : Int} {invoked : List (Invocation σ)}
    (h : w.CallFails c (.dimensionOverflow v) invoked) :
    (∃ i ∈ invoked, i.fault? = some (.dimensionOverflow v)) ∨
      c.node.call.type.dims.findSome? overflow? = some v := by
  cases h with
  | dimension _ hdims => exact Or.inr hdims
  | strategy _ hfault | shapeFunction _ _ hfault =>
    exact Or.inl ⟨_, List.mem_cons_self, hfault⟩
  | implementation _ _ _ _ hfault =>
    refine Or.inl ⟨_, List.mem_cons_of_mem _ ?_, hfault⟩
    exact List.mem_append_right _ List.mem_cons_self

/-- A dimension that does not fit is told by a collaborator, or stands where dimensions are
normalized. -/
private theorem overflows_of_fault (hf : f.Coherent) {v : Int}
    (h : w.lower f m = (.fault (.dimensionOverflow v), n)) :
    (∃ c i, w.Begins f m c ∧ i ∈ w.invocations c ∧ i.fault? = some (.dimensionOverflow v)) ∨
      (∃ t ∈ f.paramLeaves, Overflows v t.shape) ∨
      (∃ id t data, (Expr.const id t data).Within f.body ∧ Overflows v t.shape) ∨
      ∃ c : CallNode, c.expr.Within f.body ∧ Overflows v c.call.type.dims := by
  generalize he : Fault.dimensionOverflow v = e at h
  cases fails_of_lower hf h with
  | parameter _ hdims _ _ =>
    cases he
    rw [paramDims_eq] at hdims
    obtain ⟨hfits, t, hmem⟩ := overflows_of_findSome? hdims
    obtain ⟨leaf, hleaf, hmem⟩ := List.mem_flatMap.mp hmem
    exact Or.inr (Or.inl ⟨leaf, hleaf, hfits, t, hmem⟩)
  | @step before after a e n hfails =>
    obtain ⟨inputs, s, n₀, s₁, n₁, hparams, hbefore, hstep, -⟩ := hfails.fails
    have hwithin := f.within_of_mem_evalSteps
      (hfails.steps ▸ List.mem_append_right before List.mem_cons_self)
    cases hstep with
    | freeVariable | projection => cases he
    | constant _ hdims =>
      cases he
      exact Or.inr (Or.inr (Or.inl ⟨_, _, _, hwithin, overflows_of_findSome? hdims⟩))
    | call =>
      cases he
      obtain ⟨c, hnode, hbegins, hcall⟩ := hfails.failing _ rfl
      obtain ⟨i, hi, hfault⟩ | hdims := hcall.overflow
      · exact Or.inl ⟨c, i, hbegins, hi, hfault⟩
      · exact Or.inr (Or.inr (Or.inr ⟨c.node, hnode ▸ hwithin, overflows_of_findSome? hdims⟩))

/-- **What becomes of dimensions.** -/
theorem lower_fresh (hw : w.aspect = .values) (hc : w.collaborators.Keeps Action.Advances)
    (hf : f.Coherent) (hold : ∀ t, f.HasType t → t.Below m.next) :
    (∀ l n, w.lower f m = (.ok l, n) → List.Forall₂ TensorType.Becomes f.paramLeaves l.inputs) ∧
    (∀ p dims dims', w.Normalized f m p dims dims' → List.Forall₂ IndexExpr.Becomes dims dims') ∧
    (∀ p i x, w.Makes f m p i x → x.dtype = .int32 ∧ (∀ t, f.HasType t → ¬t.Uses x) ∧
      ∀ q j, w.Makes f m q j x → p = q ∧ i = j) ∧
    (∀ v, f.paramDims.findSome? overflow? = some v →
      (w.lower f m).1 = .fault (.dimensionOverflow v) ∧ ∀ c, ¬w.Begins f m c) ∧
    ∀ v n, w.lower f m = (.fault (.dimensionOverflow v), n) →
      (∃ c i, w.Begins f m c ∧ i ∈ w.invocations c ∧ i.fault? = some (.dimensionOverflow v)) ∨
        (∃ t ∈ f.paramLeaves, Overflows v t.shape) ∨
        (∃ id t data, (Expr.const id t data).Within f.body ∧ Overflows v t.shape) ∨
        ∃ c : CallNode, c.expr.Within f.body ∧ Overflows v c.call.type.dims := by
  refine ⟨fun l n h => ?_, fun p dims dims' h => ?_, fun p i x h => ⟨?_, fun t ht hx => ?_, ?_⟩,
    fun v h => lower_of_overflow hw h, fun v n h => overflows_of_fault hf h⟩
  · obtain ⟨⟨inputs, s⟩, n₀, hparams, hrest⟩ := bind_eq_ok_iff.mp h
    obtain ⟨⟨outputs, s'⟩, n₁, -, hend⟩ := bind_eq_ok_iff.mp hrest
    obtain ⟨rfl, -⟩ := pure_eq_ok_iff.mp hend
    exact (placed_bindParams hw hparams).1.becomes
  · obtain ⟨hfit, lots, next, -, rfl⟩ := h.takes hw hf
    exact becomes_normalForms lots next hfit
  · obtain ⟨next, dims, -, -, lot, rfl⟩ := h.exists_takes hw hf
    rfl
  · have hlt := (hold t ht).lt_of_uses hx
    have hle := h.next_le hw hc hf
    omega
  · exact fun q j h' => h.unique hw hc hf h'

end Walk

/-! ### An example -/

private theorem Outcome.eq_of_value? {r : Outcome α × Machine σ} {a : α} (h : r.1.value? = some a) :
    r = (.ok a, r.2) := by
  obtain ⟨o, n⟩ := r
  cases o with
  | ok b =>
    obtain rfl := Option.some.inj h
    rfl
  | fault | panic | stalled => cases h

/-- A parameter of two tensors. -/
def Var.nestedPair : Var :=
  ⟨0, "x", .tuple [.tensor ⟨[.unknown, .imm 4 .int64, .unknown], .float 32⟩,
    .tuple [.tensor ⟨[.unknown], .bool⟩]]⟩

/-- A call with this parameter. Dimensions of both tensors and of the result are unknown. -/
def Function.unknownDims : Function :=
  .ofBody [.nestedPair]
    (.call 1 "nn.relu" .empty [.var 0 .nestedPair] (.tensor ⟨[.unknown], .float 32⟩))

private theorem Function.unknownDims_coherent : unknownDims.Coherent := by
  let nodes : List Expr := [.var 0 .nestedPair, unknownDims.body]
  exact ⟨⟨fun i => nodes.getD i default⟩, rfl, rfl, trivial⟩

private theorem Function.within_unknownDims {e : Expr} (h : e.Within unknownDims.body) :
    e = unknownDims.body ∨ e = .var 0 .nestedPair := by
  cases h with
  | refl => exact Or.inl rfl
  | call _ _ _ _ ha h =>
    obtain rfl := List.mem_singleton.mp ha
    cases h
    exact Or.inr rfl

/-- No symbolic variable stands in its types. -/
private theorem Function.unknownDims_below (b : Nat) {t : Ty} (h : unknownDims.HasType t) :
    t.Below b := by
  have hpair : Var.nestedPair.type.Below b := by
    simp [Var.nestedPair, Ty.Below, Ty.leaves, Ty.leavesList, TensorType.Below, IndexExpr.Below]
  have hresult : (Ty.tensor ⟨[.unknown], .float 32⟩).Below b := by
    simp [Ty.Below, Ty.leaves, TensorType.Below, IndexExpr.Below]
  cases h with
  | ofVar hv =>
    cases hv with
    | param hv =>
      obtain rfl := List.mem_singleton.mp hv
      exact hpair
    | letIn hlet => obtain h | h := within_unknownDims hlet <;> cases h
    | occurrence hvar =>
      obtain h | h := within_unknownDims hvar
      · cases h
      · cases h
        exact hpair
  | ofConst hconst => obtain h | h := within_unknownDims hconst <;> cases h
  | @ofCall c hcall =>
    obtain h | h := within_unknownDims hcall
    · obtain ⟨-, -, -, -, htype⟩ := Expr.call.inj h
      rw [htype]
      exact hresult
    · cases h
  | result => exact hresult

private theorem Collaborators.advances_tunable (failing : String) :
    (tunable failing).Keeps Action.Advances := by
  have hpure {α : Type} {P : α → Prop} {a : α} (ha : P a) :
      Action.Advances P (pure a : Action Unit α) := by
    refine ⟨fun m => Nat.le_refl _, fun m b hb => ?_⟩
    obtain rfl := Outcome.ok.inj hb
    exact ha
  exact keeps_tunable hpure (fun _ _ => ⟨fun m => Nat.le_refl _, nofun⟩) failing

/-- The unknown dimensions of the parameter become three variables. The last of them stands for
nothing else. -/
theorem Walk.lower_fresh_unknownDims :
    let f := Function.unknownDims
    let w : Walk Unit := ⟨.tunable "add", ⟨.llvm, .empty⟩, true, .values⟩
    let m : Machine Unit := .initial () 5 fun draw => 7 - draw
    w.aspect = .values ∧ w.collaborators.Keeps Action.Advances ∧ f.Coherent ∧
      (∀ t, f.HasType t → t.Below m.next) ∧
      (w.lower f m).1.value?.map (fun l => l.inputs.map Tensor.shape) =
        some [[.var (unknownDimension ⟨2, 5⟩), .imm 4 .int32, .var (unknownDimension ⟨1, 6⟩)],
          [.var (unknownDimension ⟨0, 8⟩)]] ∧
      w.Makes f m (.input 1) 0 (unknownDimension ⟨0, 8⟩) ∧
      (∀ t, f.HasType t → ¬t.Uses (unknownDimension ⟨0, 8⟩)) ∧
      ∀ q j, w.Makes f m q j (unknownDimension ⟨0, 8⟩) → .input 1 = q ∧ 0 = j := by
  intro f w m
  have hw : w.aspect = .values := rfl
  have hc : w.collaborators.Keeps Action.Advances := Collaborators.advances_tunable "add"
  have hf : f.Coherent := Function.unknownDims_coherent
  have hold : ∀ t, f.HasType t → t.Below m.next := fun t => Function.unknownDims_below 5
  have hinputs : (w.lower f m).1.value?.map (fun l => l.inputs.map Tensor.shape) =
      some [[.var (unknownDimension ⟨2, 5⟩), .imm 4 .int32, .var (unknownDimension ⟨1, 6⟩)],
        [.var (unknownDimension ⟨0, 8⟩)]] := by decide +kernel
  have hmakes : w.Makes f m (.input 1) 0 (unknownDimension ⟨0, 8⟩) := by
    obtain ⟨l, hl, hshapes⟩ := Option.map_eq_some_iff.mp hinputs
    have hshape : (l.inputs.map Tensor.shape)[1]? = some [.var (unknownDimension ⟨0, 8⟩)] := by
      rw [hshapes]
      rfl
    rw [List.getElem?_map, Option.map_eq_some_iff] at hshape
    obtain ⟨u, hu, hshape⟩ := hshape
    have hlower := Outcome.eq_of_value? hl
    refine ⟨_, _, .input (t := ⟨[.unknown], .bool⟩) hlower rfl hu, rfl, ?_⟩
    rw [hshape]
    rfl
  obtain ⟨-, -, hfresh, -⟩ := lower_fresh hw hc hf hold
  obtain ⟨-, hunused, hunique⟩ := hfresh _ _ _ hmakes
  exact ⟨hw, hc, hf, hold, hinputs, hmakes, hunused, hunique⟩

end TensorLowering
