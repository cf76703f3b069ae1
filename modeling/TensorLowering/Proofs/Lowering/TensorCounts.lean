import TensorLowering.Proofs.Lowering.Selection
import TensorLowering.Proofs.Lowering.Visits

/-!
# One tensor for each leaf

The value of an expression is kept as a list of tensors, without the structure of its type. A field
of a tuple is found again by counting the leaves of the types of the fields before it. So each count
has to be right: an expression yields one tensor for each leaf of its type (`Walk.lower_counts`),
and then a projection out of a tuple yields what the field yields.

Shape functions are checked to return one tensor for each leaf. Implementations are not, so this is
asked of the collaborators (`Collaborators.FillsTypes`), and of local definitions that the variable
is declared with as many leaves as its value has (`Function.DeclaresLeaves`).
-/

namespace TensorLowering

open TensorLowering.Action

variable {σ : Type}

/-! ### Leaves -/

namespace Ty

private theorem leavesList_append (as bs : List Ty) :
    leavesList (as ++ bs) = leavesList as ++ leavesList bs := by
  induction as with
  | nil => rfl
  | cons a as ih => rw [List.cons_append, leavesList, leavesList, ih, List.append_assoc]

end Ty

/-- Where two steps end well, the first one does, and the second one goes on from there. -/
theorem Except.bind_eq_ok_iff {ε α β : Type} {x : Except ε α} {f : α → Except ε β} {b : β} :
    (x >>= f) = .ok b ↔ ∃ a, x = .ok a ∧ f a = .ok b := by
  cases x with
  | error e => exact ⟨nofun, nofun⟩
  | ok a => exact ⟨fun h => ⟨a, rfl, h⟩, fun ⟨_, rfl, h⟩ => h⟩

private theorem normalizeFields_length {fields fields' : List Ty} {lots : Nat → Nat}
    {next next' : Nat} (h : normalizeFields lots next fields = .ok (fields', next')) :
    (Ty.leavesList fields').length = (Ty.leavesList fields).length := by
  induction fields generalizing fields' next next' with
  | nil =>
    cases h
    rfl
  | cons field fields ih =>
    cases field with
    | tensor t =>
      obtain ⟨⟨t', n₁⟩, -, h⟩ := Except.bind_eq_ok_iff.mp h
      obtain ⟨⟨rest, n₂⟩, hrest, h⟩ := Except.bind_eq_ok_iff.mp h
      cases h
      simp only [Ty.leavesList, Ty.leaves, List.length_append, ih hrest, List.length_singleton]
    | tuple | handle =>
      obtain ⟨⟨rest, n₂⟩, hrest, h⟩ := Except.bind_eq_ok_iff.mp h
      cases h
      simp only [Ty.leavesList, List.length_append, ih hrest]

/-- The normal form of a type has as many leaves as the type. -/
private theorem Ty.normalize_length {t t' : Ty} {lots : Nat → Nat} {next next' : Nat}
    (h : t.normalize lots next = .ok (t', next')) : t'.leaves.length = t.leaves.length := by
  cases t with
  | tensor u =>
    obtain ⟨⟨u', n₁⟩, -, h⟩ := Except.bind_eq_ok_iff.mp h
    cases h
    rfl
  | tuple fields =>
    obtain ⟨⟨fields', n₁⟩, hfields, h⟩ := Except.bind_eq_ok_iff.mp h
    cases h
    exact normalizeFields_length hfields
  | handle name =>
    cases h
    rfl

/-! ### Implementations that fill their types -/

/-- An implementation that is offered for a call computes one tensor for each leaf of the type of
the call. -/
def Collaborators.FillsTypes (c : Collaborators σ) : Prop :=
  ∀ own op strategy, c.strategy? own op = some strategy →
    ∀ attrs inputs type target m offer n, strategy attrs inputs type target m = (.ok offer, n) →
      ∀ s ∈ offer.specializations, ∀ i ∈ s.implementations,
        ∀ m' ts n', i.compute attrs inputs type m' = (.ok ts, n') → ts.length = type.leaves.length

section

variable {c : Collaborators σ} {r : CallSite} {target : Target} {is : List (Implementation σ)}
  {i : Implementation σ} {m n : Machine σ} {ts : List Tensor}

private theorem Action.exists_of_suspendIf {α : Type} {x : Action σ α} {a : α} {suspended : Bool}
    (h : suspendIf suspended x m = (.ok a, n)) : ∃ m' n', x m' = (.ok a, n') := by
  cases suspended with
  | false => exact ⟨m, n, h⟩
  | true => exact ⟨{ m with thread := m.thread.suspend }, _, Prod.ext (Prod.mk.inj h).1 rfl⟩

/-- What computes an implementation from what is applicable, fills the type of the call. -/
private theorem Collaborators.FillsTypes.candidates (hc : c.FillsTypes)
    (h : candidates c r target m = (.ok is, n)) : ∀ i ∈ is, ∀ m' ts n',
      i.compute r.attrs r.inputs r.type m' = (.ok ts, n') → ts.length = r.type.leaves.length := by
  intro i hi
  obtain ⟨own, s, hs, target, m', offer, n', hrun, sp, hsp, hi⟩ := offers_of_candidates h i hi
  exact hc own r.op s hs r.attrs r.inputs r.type target m' offer n' hrun sp hsp i hi

private theorem Computes.exists_compute {all : List (List Tensor)} {k : Nat}
    (h : Computes r target is m all n) (hi : is[k]? = some i) (hts : all[k]? = some ts) :
    ∃ m' n', i.compute r.attrs r.inputs r.type m' = (.ok ts, n') := by
  induction h generalizing k with
  | nil => cases hi
  | @cons j js m m₁ m' outputs rest hcompute _ ih =>
    cases k with
    | zero =>
      obtain rfl := Option.some.inj hi
      obtain rfl := Option.some.inj hts
      exact ⟨m, m₁, hcompute⟩
    | succ k => exact ih hi hts

/-- What is chosen is one of the candidates, and it has computed the outputs. -/
private theorem exists_compute_of_select {useCosts : Bool}
    (h : select is r target useCosts m = (.ok (i, ts), n)) :
    i ∈ is ∧ ∃ m' n', i.compute r.attrs r.inputs r.type m' = (.ok ts, n') := by
  cases useCosts with
  | false =>
    obtain ⟨⟨k, hbest⟩, hcomputes⟩ := select_false_iff.mp h
    obtain ⟨m', n', hcompute⟩ := hcomputes.exists_compute (k := 0) rfl rfl
    exact ⟨List.mem_of_getElem? hbest.here, m', n', hcompute⟩
  | true =>
    obtain ⟨all, k, hcomputes, hi, hts, -⟩ := select_true_iff.mp h
    exact ⟨List.mem_of_getElem? hi, hcomputes.exists_compute hi hts⟩

private theorem lowerCall_length (hc : c.FillsTypes) {useCosts : Bool} {call : Call}
    {inputs : List Tensor} {lowered : LoweredCall}
    (h : lowerCall c target useCosts call inputs m = (.ok lowered, n)) :
    lowered.outputs.length = call.type.leaves.length := by
  obtain ⟨type, m₁, htype, h⟩ := bind_eq_ok_iff.mp h
  obtain ⟨excluded, m₂, -, h⟩ := bind_eq_ok_iff.mp h
  obtain ⟨m₃, n₃, h⟩ := exists_of_suspendIf h
  obtain ⟨is, m₄, his, h⟩ := bind_eq_ok_iff.mp h
  obtain ⟨⟨i, outputs⟩, m₅, hselect, h⟩ := bind_eq_ok_iff.mp h
  obtain ⟨rfl, -⟩ := pure_eq_ok_iff.mp h
  obtain ⟨hi, m', n', hcompute⟩ := exists_compute_of_select hselect
  obtain ⟨next, hnormal, -⟩ := takeNumbers_eq_ok_iff.mp htype
  exact (hc.candidates his i hi m' outputs n' hcompute).trans (Ty.normalize_length hnormal)

private theorem callShapeFunction_length {call : Call} {inputs : List Tensor}
    (h : callShapeFunction c call inputs m = (.ok ts, n)) :
    ts.length = call.type.leaves.length := by
  obtain ⟨f, m₁, -, h⟩ := bind_eq_ok_iff.mp h
  obtain ⟨us, m₂, -, h⟩ := bind_eq_ok_iff.mp h
  split at h
  · next hlength =>
    obtain ⟨rfl, -⟩ := pure_eq_ok_iff.mp h
    rw [hlength, List.length_map]
  · cases h

end

/-! ### Fields of a tuple -/

section

variable {t : Ty} {fields : List Ty} {us ts : List Tensor} {i : Nat}

/-- An element stands between those before it and those behind it. -/
private theorem exists_append_of_getElem? {α : Type} {l : List α} {a : α} (h : l[i]? = some a) :
    ∃ before after, l = before ++ a :: after ∧ before.length = i := by
  obtain ⟨hi, rfl⟩ := List.getElem?_eq_some_iff.mp h
  refine ⟨l.take i, l.drop (i + 1), ?_, List.length_take_of_le (Nat.le_of_lt hi)⟩
  rw [List.getElem_cons_drop, List.take_append_drop]

private theorem projectTensors_length (h : projectTensors t us i = .ok ts) :
    ts.length = (t.field i).leaves.length := by
  unfold projectTensors at h
  split at h
  · next fields =>
    split at h
    · cases h
    · next field hfield =>
      dsimp only at h
      split at h
      · next hle =>
        cases h
        rw [Ty.field, hfield, Option.getD_some, List.length_take, List.length_drop]
        omega
      · cases h
  · cases h
  · cases h

/-- A field is found by counting the tensors of those before it. -/
private theorem projectTensors_append {before after : List Ty} {field : Ty} {vs : List Tensor}
    (hbefore : us.length = (Ty.leavesList before).length)
    (hfield : ts.length = field.leaves.length) :
    projectTensors (.tuple (before ++ field :: after)) (us ++ (ts ++ vs)) before.length
      = .ok ts := by
  have hget : (before ++ field :: after)[before.length]? = some field := by
    rw [List.getElem?_append_right (Nat.le_refl _), Nat.sub_self, List.getElem?_cons_zero]
  simp only [projectTensors, hget, List.take_left, ← hbefore, ← hfield, List.length_append]
  rw [if_pos (by omega), List.drop_left, List.take_left]

/-- Out of as many tensors as there are leaves every field can be taken. -/
private theorem exists_projectTensors (hi : i < fields.length)
    (hlength : us.length = (Ty.tuple fields).leaves.length) :
    ∃ ts, projectTensors (.tuple fields) us i = .ok ts := by
  have hfield : fields[i]? = some fields[i] := List.getElem?_eq_getElem hi
  generalize fields[i] = field at hfield
  obtain ⟨before, after, rfl, rfl⟩ := exists_append_of_getElem? hfield
  have hle : (Ty.leavesList before).length + field.leaves.length ≤ us.length := by
    rw [hlength, Ty.leaves, Ty.leavesList_append, Ty.leavesList, List.length_append,
      List.length_append]
    omega
  simp only [projectTensors, hfield, List.take_left, if_pos hle]
  exact ⟨_, rfl⟩

end

/-! ### Counting -/

/-- Local definitions declare their variables with as many leaves as their values have. -/
def Function.DeclaresLeaves (f : Function) : Prop :=
  ∀ id v value body, (Expr.letIn id v value body).Within f.body →
    v.type.leaves.length = value.type.leaves.length

/-- There is one tensor for each leaf of the type of each variable that is bound and of each node
that is kept. -/
structure Progress.Counted (k : Catalogue) (var : Nat → Var) (s : Progress) : Prop where
  bound : ∀ x ts, s.bound.lookup x = some ts → ts.length = (var x).type.leaves.length
  memo : ∀ i ts, s.memo.lookup i = some ts → ts.length = (k.node i).type.leaves.length

namespace Progress

variable {k : Catalogue} {var : Nat → Var} {s s' : Progress} {ts : List Tensor} {v : Var} {e : Expr}

private theorem counted_start : start.Counted k var := by
  constructor
  · intro x ts hx
    cases hx
  · intro i ts hi
    cases hi

/-- Only what is remembered and bound is counted. -/
theorem Counted.of_eq (h : s.Counted k var) (hmemo : s'.memo = s.memo)
    (hbound : s'.bound = s.bound) : s'.Counted k var :=
  ⟨fun x ts hx => h.bound x ts (by rwa [← hbound]), fun i ts hi => h.memo i ts (by rwa [← hmemo])⟩

/-- A variable may be bound to as many tensors as its type has. -/
theorem Counted.bind (h : s.Counted k var) (hv : var v.id = v)
    (hlength : ts.length = v.type.leaves.length) : (s.bind v ts).Counted k var := by
  refine ⟨fun x us hx => ?_, h.memo⟩
  rw [lookup_bind] at hx
  split at hx
  · next heq =>
    obtain rfl := Option.some.inj hx
    rw [heq, hv, hlength]
  · exact h.bound x us hx

private theorem Counted.remember (h : s.Counted k var) (he : e.In k)
    (hlength : ts.length = e.type.leaves.length) : (s.remember e.id ts).Counted k var := by
  refine ⟨h.bound, fun i us hi => ?_⟩
  rw [lookup_remember] at hi
  split at hi
  · next heq =>
    obtain rfl := Option.some.inj hi
    rw [heq, he.node, hlength]
  · exact h.memo i us hi

end Progress

/-- What the leaves of a function are counted by: the node of each number and the variable of each
number, in a function that is a graph and declares its variables with the right leaves. -/
structure Function.Counts (f : Function) (k : Catalogue) (var : Nat → Var) : Prop where
  nodes : f.body.In k
  vars : ∀ v, f.Mentions v → var v.id = v
  lets : f.DeclaresLeaves

namespace Walk

variable {w : Walk σ} {f : Function} {k : Catalogue} {var : Nat → Var} {s s' : Progress}
  {m n n' : Machine σ} {ts us : List Tensor}

private theorem finishCall_length (hw : w.aspect = .values → w.collaborators.FillsTypes)
    {call : Call} {inputs : List Tensor} (h : w.finishCall s call inputs n = (.ok (ts, s'), n')) :
    ts.length = call.type.leaves.length := by
  cases haspect : w.aspect with
  | values =>
    simp only [finishCall, haspect] at h
    obtain ⟨lowered, n₁, hlowered, hend⟩ := bind_eq_ok_iff.mp h
    obtain ⟨rfl, -, -⟩ := pure_pair_eq_ok_iff.mp hend
    exact lowerCall_length (hw haspect) hlowered
  | shapes =>
    simp only [finishCall, haspect] at h
    obtain ⟨outputs, n₁, houtputs, hend⟩ := bind_eq_ok_iff.mp h
    obtain ⟨rfl, -, -⟩ := pure_pair_eq_ok_iff.mp hend
    exact callShapeFunction_length houtputs

/-- **A visit ends with one tensor for each leaf.** -/
theorem visitRule_counts (hw : w.aspect = .values → w.collaborators.FillsTypes)
    (hf : f.Counts k var) : w.VisitRule
    (fun s e _ ts s' _ => e.Within f.body → s.Counted k var →
      ts.length = e.type.leaves.length ∧ s'.Counted k var)
    (fun s e _ ts s' _ => e.Within f.body → s.Counted k var →
      ts.length = e.type.leaves.length ∧ s'.Counted k var)
    (fun s es _ ts s' _ => (∀ e ∈ es, e.Within f.body) → s.Counted k var →
      ts.length = (Ty.leavesList (es.map Expr.type)).length ∧ s'.Counted k var) where
  hit {s e n ts} hmemo he hs := by
    have hlength := hs.memo _ _ hmemo
    rw [(he.inCatalogue hf.nodes).node] at hlength
    exact ⟨hlength, hs⟩
  leave _ _ hnode he hs := by
    obtain ⟨hlength, hs'⟩ := hnode he hs
    exact ⟨hlength, hs'.remember (he.inCatalogue hf.nodes) hlength⟩
  var id v hlookup he hs := by
    have hlength := hs.bound _ _ hlookup
    rw [hf.vars v (.occurrence he)] at hlength
    exact ⟨hlength, hs⟩
  const _ _ _ _ _ hs := ⟨rfl, hs⟩
  call id op attrs args type _ hargs hfinish he hs := by
    obtain ⟨hmemo, hbound⟩ := finishCall_tables hfinish
    have hs' := (hargs (fun a ha => (Expr.Within.call id op attrs type ha (.refl a)).trans he) hs).2
    exact ⟨finishCall_length hw hfinish, hs'.of_eq hmemo hbound⟩
  tuple id fields _ hfields he hs := by
    rw [Expr.type_tuple]
    exact hfields (fun a ha => (Expr.Within.tuple id ha (.refl a)).trans he) hs
  proj id i e _ hvisit hproject he hs := by
    rw [Expr.type_proj]
    exact ⟨projectTensors_length hproject,
      (hvisit ((Expr.Within.proj id i (.refl e)).trans he) hs).2⟩
  letIn id v value body _ hvalue _ hbody he hs := by
    obtain ⟨hlength, hs₁⟩ := hvalue ((Expr.Within.letValue id v body (.refl value)).trans he) hs
    have hdeclared := hlength.trans (hf.lets id v value body he).symm
    exact hbody ((Expr.Within.letBody id v value (.refl body)).trans he)
      (hs₁.bind (hf.vars v (.letIn he)) hdeclared)
  nil _ hs := ⟨rfl, hs⟩
  cons e es _ hfirst _ hrest hes hs := by
    rw [List.forall_mem_cons] at hes
    obtain ⟨hlength, hs₁⟩ := hfirst hes.1 hs
    obtain ⟨hlength', hs'⟩ := hrest hes.2 hs₁
    refine ⟨?_, hs'⟩
    rw [List.map_cons, Ty.leavesList, List.length_append, List.length_append, hlength, hlength']

private theorem inputTensors_length {aspect : Aspect} {name : String} {types : List TensorType}
    (h : inputTensors aspect name types n = (.ok ts, n')) : ts.length = types.length := by
  induction types generalizing n ts with
  | nil =>
    obtain ⟨rfl, -⟩ := pure_eq_ok_iff.mp h
    rfl
  | cons t types ih =>
    obtain ⟨first, n₁, -, h⟩ := bind_eq_ok_iff.mp h
    obtain ⟨rest, n₂, hrest, h⟩ := bind_eq_ok_iff.mp h
    obtain ⟨rfl, rfl⟩ := pure_eq_ok_iff.mp h
    exact congrArg Nat.succ (ih hrest)

private theorem bindParams_counted {vs : List Var} (hvs : ∀ v ∈ vs, var v.id = v)
    (hs : s.Counted k var) (h : w.bindParams s vs n = (.ok (ts, s'), n')) : s'.Counted k var := by
  induction vs generalizing s n ts with
  | nil =>
    obtain ⟨-, rfl, -⟩ := pure_pair_eq_ok_iff.mp h
    exact hs
  | cons v vs ih =>
    rw [List.forall_mem_cons] at hvs
    obtain ⟨us, n₁, hus, h⟩ := bind_eq_ok_iff.mp h
    obtain ⟨⟨rest, s₁⟩, n₂, hrest, h⟩ := bind_eq_ok_iff.mp h
    obtain ⟨-, rfl, rfl⟩ := pure_pair_eq_ok_iff.mp h
    exact ih hvs.2 (hs.bind hvs.1 (inputTensors_length hus)) hrest

/-- When the body is entered, the tensors of the parameters have the right number. -/
private theorem bindParams_start_counted (hf : f.Counts k var)
    (h : w.bindParams .start f.params n = (.ok (ts, s'), n')) : s'.Counted k var :=
  bindParams_counted (fun v hv => hf.vars v (.param hv)) Progress.counted_start h

end Walk

namespace Visit

variable {w : Walk σ} {f : Function} {k : Catalogue} {var : Nat → Var} {a b : Visit σ}
  {m : Machine σ} {s : Progress} {n : Machine σ} {ts : List Tensor}

private theorem Leads.counted (hw : w.aspect = .values → w.collaborators.FillsTypes)
    (hf : f.Counts k var) (ha : a.node.Within f.body) (hs : a.progress.Counted k var)
    (h : a.Leads w b) : b.progress.Counted k var := by
  have hrule := Walk.visitRule_counts hw hf
  cases h with
  | part _ hparts hrun =>
    refine (hrule.visitAll _ hrun (fun d hd => ?_) hs).2
    exact (Expr.within_of_mem_parts (hparts ▸ List.mem_append_left _ hd)).trans ha
  | body _ hnode hrun =>
    rw [hnode] at ha
    obtain ⟨hlength, hs'⟩ :=
      hrule.visit hrun ((Expr.Within.letValue _ _ _ (.refl _)).trans ha) hs
    exact hs'.bind (hf.vars _ (.letIn ha)) (hlength.trans (hf.lets _ _ _ _ ha).symm)

end Visit

namespace Walk

variable {w : Walk σ} {f : Function} {k : Catalogue} {var : Nat → Var} {a : Visit σ}
  {m : Machine σ} {s : Progress} {n : Machine σ} {ts us : List Tensor} {e : Expr}

/-- Whatever is visited, what was found before has the right number of tensors. -/
theorem Visits.counted (hw : w.aspect = .values → w.collaborators.FillsTypes)
    (hf : f.Counts k var) (h : w.Visits f m a) : a.progress.Counted k var := by
  obtain ⟨inputs, s, n, hparams, hreach⟩ := h
  induction hreach with
  | refl => exact bindParams_start_counted hf hparams
  | tail hreach hlead ih => exact hlead.counted hw hf (Visit.Reaches.within hreach) ih

/-- An expression yields as many tensors as its type has. -/
theorem Yields.length_eq (hw : w.aspect = .values → w.collaborators.FillsTypes)
    (hf : f.Counts k var) (h : w.Yields f m e ts) : ts.length = e.type.leaves.length := by
  obtain ⟨a, s, n, ha, rfl, hends⟩ := h
  exact ((visitRule_counts hw hf).visit hends ha.within (ha.counted hw hf)).1

/-- A projection ends well if what it is taken from does. -/
private theorem Visits.exists_ends_proj (hw : w.aspect = .values → w.collaborators.FillsTypes)
    (hf : f.Counts k var) (ha : w.Visits f m a) {id i : Nat} {fields : List Ty}
    (hnode : a.node = .proj id e i) (htype : e.type = .tuple fields) (hi : i < fields.length)
    (hrun : w.visit a.progress e a.machine = (.ok (us, s), n)) :
    (∃ ts, projectTensors e.type us i = .ok ts) ∧ ∃ ts s' n', a.Ends w ts s' n' := by
  have hwithin : e.Within f.body := by
    have hproj := ha.within
    rw [hnode] at hproj
    exact (Expr.Within.proj id i (.refl e)).trans hproj
  have hlength := ((visitRule_counts hw hf).visit hrun hwithin (ha.counted hw hf)).1
  rw [htype] at hlength
  obtain ⟨ts, hts⟩ := exists_projectTensors hi hlength
  rw [← htype] at hts
  refine ⟨⟨ts, hts⟩, ?_⟩
  cases hmemo : a.progress.memo.lookup a.node.id with
  | some vs => exact ⟨vs, a.progress, a.machine, Visit.ends_of_lookup hmemo⟩
  | none =>
    refine ⟨ts, s.remember a.node.id ts, n, Visit.Missed.ends hmemo ?_⟩
    rw [hnode]
    refine bind_eq_ok_iff.mpr ⟨(us, s), n, hrun, ?_⟩
    dsimp only
    rw [hts]
    rfl

/-- What a field of a tuple that is written down yields is what the projection yields. -/
private theorem Yields.proj_tuple (hw : w.aspect = .values → w.collaborators.FillsTypes)
    (hf : f.Counts k var) {id j i : Nat} {fields : List Expr} {d : Expr}
    (hd : fields[i]? = some d) (h : w.Yields f m (.proj id (.tuple j fields) i) ts) :
    w.Yields f m d ts := by
  have hcoherent : f.Coherent := ⟨k, hf.nodes⟩
  -- the projection was made of what the tuple yields
  obtain ⟨a, s, n, ha, hmiss, hnode, hends⟩ := h.exists_missed hcoherent
  obtain ⟨s₁, hlower, -⟩ := hends.exists_lowerNode (ha.within.inCatalogue hf.nodes) hmiss
  rw [hnode] at hlower
  obtain ⟨⟨us, s₂⟩, n₂, hus, hproject⟩ := bind_eq_ok_iff.mp hlower
  have htuple : w.Yields f m (.tuple j fields) us := by
    refine ⟨⟨a.progress, a.machine, .tuple j fields⟩, s₂, n₂, ha.step ?_, rfl, hus⟩
    exact .first hmiss (congrArg Expr.parts hnode)
  -- the tuple was made of what the fields yield
  obtain ⟨b, s₃, n₃, hb, hmiss', hnode', hends'⟩ := htuple.exists_missed hcoherent
  obtain ⟨s₄, hlower', -⟩ := hends'.exists_lowerNode (hb.within.inCatalogue hf.nodes) hmiss'
  rw [hnode'] at hlower'
  obtain ⟨before, after, rfl, rfl⟩ := exists_append_of_getElem? hd
  obtain ⟨us₁, s₅, n₅, us₂, hbefore, hrest, rfl⟩ := visitAll_append_iff.mp hlower'
  obtain ⟨us₃, s₆, n₆, us₄, hfield, -, rfl⟩ := visitAll_cons_iff.mp hrest
  have hyields : w.Yields f m d us₃ :=
    ⟨⟨s₅, n₅, d⟩, s₆, n₆, hb.step (.part hmiss' (congrArg Expr.parts hnode') hbefore), rfl, hfield⟩
  have hwithin : ∀ e ∈ before, e.Within f.body := by
    intro e he
    have hmem : e ∈ b.node.parts := by
      rw [hnode']
      exact List.mem_append_left _ he
    exact (Expr.within_of_mem_parts hmem).trans hb.within
  have hlength := ((visitRule_counts hw hf).visitAll before hbefore hwithin (hb.counted hw hf)).1
  have hprojected : projectTensors (.tuple (before.map Expr.type ++ d.type :: after.map Expr.type))
      (us₁ ++ (us₃ ++ us₄)) (before.map Expr.type).length = .ok us₃ :=
    projectTensors_append hlength (hyields.length_eq hw hf)
  dsimp only at hproject
  rw [Expr.type_tuple, List.map_append, List.map_cons] at hproject
  rw [List.length_map] at hprojected
  rw [hprojected] at hproject
  obtain ⟨rfl, -, -⟩ := pure_pair_eq_ok_iff.mp hproject
  exact hyields

/-- **Counts of tensors are right.** Let the function be a graph, in which one number stands for one
variable and local definitions declare their variables with the right leaves; and for values, let
the implementations fill their types. Then

* an expression yields one tensor for each leaf of its type;
* a projection out of a tuple, at the number of one of its fields, succeeds if the tuple does;
* a projection out of a tuple that is written down yields what the field yields;
* if the lowering ends well, there is one output for each leaf of the type of the body. -/
theorem lower_counts (w : Walk σ) (m : Machine σ) (hf : f.Coherent) (hvars : f.AgreeOnVars f)
    (hlets : f.DeclaresLeaves) (hw : w.aspect = .values → w.collaborators.FillsTypes) :
    (∀ e ts, w.Yields f m e ts → ts.length = e.type.leaves.length) ∧
      (∀ a id e i fields, w.Visits f m a → a.node = .proj id e i → e.type = .tuple fields →
        i < fields.length → ∀ us s n, w.visit a.progress e a.machine = (.ok (us, s), n) →
          (∃ ts, projectTensors e.type us i = .ok ts) ∧ ∃ ts s' n', a.Ends w ts s' n') ∧
      (∀ id j fields i d ts, fields[i]? = some d →
        w.Yields f m (.proj id (.tuple j fields) i) ts → ∀ us, w.Yields f m d us ↔ us = ts) ∧
      (∀ l n, w.lower f m = (.ok l, n) → l.outputs.length = f.body.type.leaves.length) := by
  obtain ⟨k, hk⟩ := hf
  obtain ⟨var, hvar⟩ := hvars
  have hcounts : f.Counts k var := ⟨hk, fun v hv => hvar v (Or.inl hv), hlets⟩
  refine ⟨fun e ts h => h.length_eq hw hcounts, ?_, ?_, ?_⟩
  · intro a id e i fields ha hnode htype hi us s n hrun
    exact ha.exists_ends_proj hw hcounts hnode htype hi hrun
  · intro id j fields i d ts hd h us
    have hyields := h.proj_tuple hw hcounts hd
    constructor
    · exact fun hus => hus.unique ⟨k, hk⟩ hyields
    · rintro rfl
      exact hyields
  · intro l n h
    obtain ⟨⟨inputs, s⟩, n₁, hparams, h⟩ := bind_eq_ok_iff.mp h
    obtain ⟨⟨outputs, s'⟩, n₂, hvisit, h⟩ := bind_eq_ok_iff.mp h
    obtain ⟨rfl, -⟩ := pure_eq_ok_iff.mp h
    have hbody : w.Yields f m f.body outputs :=
      ⟨⟨s, n₁, f.body⟩, s', n₂, ⟨inputs, s, n₁, hparams, .refl⟩, rfl, hvisit⟩
    exact hbody.length_eq hw hcounts

end Walk

/-! ### An example -/

private theorem length_of_mapM {α β : Type} {f : α → Action σ β} {as : List α} {bs : List β}
    {m n : Machine σ} (h : as.mapM f m = (.ok bs, n)) : bs.length = as.length := by
  induction as generalizing m bs with
  | nil =>
    obtain ⟨rfl, -⟩ := pure_eq_ok_iff.mp h
    rfl
  | cons a as ih =>
    rw [List.mapM_cons] at h
    obtain ⟨b, m₁, -, h⟩ := bind_eq_ok_iff.mp h
    obtain ⟨rest, m₂, hrest, h⟩ := bind_eq_ok_iff.mp h
    obtain ⟨rfl, rfl⟩ := pure_eq_ok_iff.mp h
    exact congrArg Nat.succ (ih hrest)

private theorem Collaborators.fillsTypes_pointwise : Collaborators.pointwise.FillsTypes := by
  intro own op s hs attrs inputs type target m offer n hoffer sp hsp i hi m' ts n' hrun
  obtain rfl := Option.some.inj hs
  obtain ⟨rfl, -⟩ := pure_eq_ok_iff.mp hoffer
  obtain rfl := List.mem_singleton.mp hsp
  obtain rfl := List.mem_singleton.mp hi
  exact length_of_mapM hrun

/-- A parameter that is given another name, and taken out of a tuple: `let y = x in (x, y).1`. -/
def Function.renamed (x y : Var) : Function :=
  .ofBody [x] (.letIn 4 y (.var 0 x) (.proj 3 (.tuple 2 [.var 0 x, .var 1 y]) 1))

section

variable {x y : Var}

private theorem Function.renamed_coherent (x y : Var) : (renamed x y).Coherent := by
  let node : Nat → Expr
    | 0 => .var 0 x
    | 1 => .var 1 y
    | 2 => .tuple 2 [.var 0 x, .var 1 y]
    | 3 => .proj 3 (.tuple 2 [.var 0 x, .var 1 y]) 1
    | _ => (renamed x y).body
  exact ⟨⟨node⟩, rfl, rfl, rfl, rfl, rfl, rfl, trivial⟩

/-- The parts of the function that bind or name a variable. -/
private theorem Function.renamed_within {e : Expr} (h : e.Within (renamed x y).body) :
    e = (renamed x y).body ∨ e = .var 0 x ∨ e = .var 1 y ∨
      (∀ id v, e ≠ .var id v) ∧ ∀ id v value body, e ≠ .letIn id v value body := by
  cases h with
  | refl => exact Or.inl rfl
  | letValue _ _ _ h =>
    cases h
    exact Or.inr (Or.inl rfl)
  | letBody _ _ _ h =>
    cases h with
    | refl => exact Or.inr (Or.inr (Or.inr ⟨nofun, nofun⟩))
    | proj _ _ h =>
      cases h with
      | refl => exact Or.inr (Or.inr (Or.inr ⟨nofun, nofun⟩))
      | tuple _ ha h =>
        obtain rfl | ha := List.mem_cons.mp ha
        · cases h
          exact Or.inr (Or.inl rfl)
        · obtain rfl := List.mem_singleton.mp ha
          cases h
          exact Or.inr (Or.inr (Or.inl rfl))

private theorem Function.renamed_mentions {v : Var} (h : (renamed x y).Mentions v) :
    v = x ∨ v = y := by
  cases h with
  | param hv => exact Or.inl (List.mem_singleton.mp hv)
  | letIn hwithin =>
    obtain heq | heq | heq | ⟨-, hne⟩ := renamed_within hwithin
    · exact Or.inr (Expr.letIn.inj heq).2.1
    · cases heq
    · cases heq
    · exact absurd rfl (hne _ _ _ _)
  | occurrence hwithin =>
    obtain heq | heq | heq | ⟨hne, -⟩ := renamed_within hwithin
    · cases heq
    · exact Or.inl (Expr.var.inj heq).2
    · exact Or.inr (Expr.var.inj heq).2
    · exact absurd rfl (hne _ _)

end

/-- With a parameter of the type `(Handle, (Tensor, Tensor))`, the function has two outputs. What
the projection yields is what is known as `y`. -/
theorem Walk.lower_counts_renamed :
    let t : Ty := .tensor ⟨[.imm 4 .int64], .float 32⟩
    let type : Ty := .tuple [.handle "Storage", .tuple [t, t]]
    let x : Var := ⟨0, "x", type⟩
    let y : Var := ⟨1, "y", type⟩
    let w (aspect : Aspect) : Walk Unit := ⟨.pointwise, ⟨.llvm, .empty⟩, false, aspect⟩
    let m : Machine Unit := .initial () 0
    ∀ aspect, (∃ l n, (w aspect).lower (.renamed x y) m = (.ok l, n) ∧ l.outputs.length = 2) ∧
      ∀ ts, (w aspect).Yields (.renamed x y) m
        (.proj 3 (.tuple 2 [.var 0 x, .var 1 y]) 1) ts →
          ts.length = 2 ∧ ∀ us, (w aspect).Yields (.renamed x y) m (.var 1 y) us ↔ us = ts := by
  intro t type x y w m aspect
  have hvars : (Function.renamed x y).AgreeOnVars (Function.renamed x y) := by
    refine ⟨fun i => if i = 0 then x else y, fun v hv => ?_⟩
    obtain rfl | rfl := Function.renamed_mentions (hv.elim id id)
    · rfl
    · rfl
  have hlets : (Function.renamed x y).DeclaresLeaves := by
    intro id v value body hwithin
    obtain heq | heq | heq | ⟨-, hne⟩ := Function.renamed_within hwithin
    · obtain ⟨-, rfl, rfl, -⟩ := Expr.letIn.inj heq
      rfl
    · cases heq
    · cases heq
    · exact absurd rfl (hne _ _ _ _)
  obtain ⟨hyields, -, hproj, houtputs⟩ := (w aspect).lower_counts m (Function.renamed_coherent x y)
    hvars hlets fun _ => Collaborators.fillsTypes_pointwise
  refine ⟨?_, fun ts hts => ⟨hyields _ ts hts, hproj 3 2 _ 1 _ ts rfl hts⟩⟩
  have hok : ((w aspect).lower (.renamed x y) m).1.isOk = true := by
    cases aspect with
    | values | shapes => decide +kernel
  obtain ⟨l, n, h⟩ := Outcome.exists_of_isOk hok
  exact ⟨l, n, h, houtputs l n h⟩

end TensorLowering
