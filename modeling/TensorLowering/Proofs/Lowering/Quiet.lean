import TensorLowering.Lowering.Walk

/-!
# Quiet actions

An action is *quiet* if it issues no requests of its own: it neither looks at the caches and the
table of names nor changes them, and so it never waits for itself. Collaborators are quiet if all
that they do is, including what the implementations do that they offer (`Collaborators.Quiet`).
With quiet collaborators a whole lowering is quiet (`Walk.quiet_lower`): what it does on one
machine, it does on any machine that differs only in the caches and the names.

A lowering does no more with the actions of collaborators than to run them in a row, with a target
entered or tracing suspended. What it does between them is *plain*: it takes numbers from the supply
and changes nothing else (`Action.Plain`), unless it notes a task. So any property of actions that
is kept by this (`Action.Closed`, `Action.Regime`) passes from the collaborators to the whole
lowering (`Action.Regime.lower`). Most properties hold of all quiet actions (`Action.Discipline`).
-/

namespace TensorLowering

variable {σ α β : Type}

/-- The machine with other caches and names. -/
def Machine.withTables (m : Machine σ) (values shapes : Cache) (names : NameTable) : Machine σ :=
  { m with values, shapes, names }

namespace Action

/-- An action that does not touch the caches and the names; its results have a property. -/
structure Quiet (P : α → Prop) (x : Action σ α) : Prop where
  tables : ∀ m v s n, x (m.withTables v s n) = ((x m).1, (x m).2.withTables v s n)
  ends : ∀ m, (x m).1 ≠ .stalled
  result : ∀ m a, (x m).1 = .ok a → P a

/-- An action that does not touch the caches and the names. -/
abbrev Calm (x : Action σ α) : Prop := Quiet (fun _ => True) x

variable {P : α → Prop} {Q : β → Prop} {x : Action σ α}

/-- To return a value is quiet. -/
theorem quiet_pure {a : α} (h : P a) : Quiet P (pure a : Action σ α) := by
  refine ⟨fun _ _ _ _ => rfl, (fun _ h => nomatch h), ?_⟩
  intro m b hb
  obtain rfl := Outcome.ok.inj hb
  exact h

/-- To fail is quiet. -/
theorem quiet_fail (e : Fault) : Quiet P (fail e : Action σ α) :=
  ⟨fun _ _ _ _ => rfl, (fun _ h => nomatch h), fun _ _ h => nomatch h⟩

/-- Two quiet things in a row. -/
theorem Quiet.bind {f : α → Action σ β} (hx : Quiet P x) (hf : ∀ a, P a → Quiet Q (f a)) :
    Quiet Q (x >>= f) := by
  have hrun (m : Machine σ) : (x >>= f) m = Action.bind x f m := rfl
  refine ⟨fun m v s n => ?_, fun m => ?_, fun m b hb => ?_⟩
  · rw [hrun, hrun]
    unfold Action.bind
    rw [hx.tables m v s n]
    cases hxm : x m with
    | mk o m' =>
      cases o with
      | ok a => exact (hf a (hx.result m a (by rw [hxm]))).tables m' v s n
      | fault | panic | stalled => rfl
  · rw [hrun]
    unfold Action.bind
    cases hxm : x m with
    | mk o m' =>
      cases o with
      | ok a => exact (hf a (hx.result m a (by rw [hxm]))).ends m'
      | fault | panic => exact fun h => nomatch h
      | stalled => exact absurd (by rw [hxm]) (hx.ends m)
  · rw [hrun] at hb
    unfold Action.bind at hb
    cases hxm : x m with
    | mk o m' =>
      rw [hxm] at hb
      cases o with
      | ok a => exact (hf a (hx.result m a (by rw [hxm]))).result m' b hb
      | fault | panic | stalled => exact nomatch hb

private theorem quiet_read {f : Machine σ → α} (h : ∀ m v s n, f (m.withTables v s n) = f m) :
    Calm (read f) := by
  refine ⟨fun m v s n => ?_, (fun _ h => nomatch h), fun _ _ _ => trivial⟩
  change (Outcome.ok (f (m.withTables v s n)), _) = _
  rw [h]
  rfl

/-- To take a number is quiet. -/
theorem quiet_freshNumber : Calm (freshNumber : Action σ Nat) :=
  ⟨fun _ _ _ _ => rfl, (fun _ h => nomatch h), fun _ _ _ => trivial⟩

private theorem quiet_takeNumbers (f : (Nat → Nat) → Nat → Except Fault (α × Nat)) :
    Calm (takeNumbers f : Action σ α) := by
  refine ⟨fun m v s n => ?_, fun m => ?_, fun _ _ _ => trivial⟩
  · unfold takeNumbers
    dsimp only [Machine.withTables]
    generalize f m.lots m.next = r
    rcases r with e | ⟨a, next⟩ <;> rfl
  · unfold takeNumbers
    rcases f m.lots m.next with e | ⟨a, next⟩ <;> exact fun h => nomatch h

/-- Numbers are taken from the supply, and nothing else of the machine changes. -/
theorem takeNumbers_eq_ok_iff {f : (Nat → Nat) → Nat → Except Fault (α × Nat)}
    {m n : Machine σ} {a : α} : takeNumbers f m = (.ok a, n) ↔
      ∃ next, f m.lots m.next = .ok (a, next) ∧ n = { m with next } := by
  unfold takeNumbers
  rcases f m.lots m.next with e | ⟨b, next⟩
  · simp
  · simp only [Prod.mk.injEq, Outcome.ok.injEq, Except.ok.injEq]
    constructor
    · exact fun ⟨hb, hn⟩ => ⟨next, ⟨hb, rfl⟩, hn.symm⟩
    · exact fun ⟨_, ⟨hb, hnext⟩, hn⟩ => ⟨hb, hnext ▸ hn.symm⟩

/-- A quiet action that changes nothing but the supply of numbers. -/
structure Plain (P : α → Prop) (x : Action σ α) : Prop extends Quiet P x where
  machine : ∀ m, (x m).2 = { m with next := (x m).2.next }

/-- To return a value is plain. -/
theorem plain_pure {a : α} (h : P a) : Plain P (pure a : Action σ α) :=
  ⟨quiet_pure h, fun _ => rfl⟩

theorem plain_fail (e : Fault) : Plain P (fail e : Action σ α) := ⟨quiet_fail e, fun _ => rfl⟩

/-- Two plain things in a row. -/
theorem Plain.bind {f : α → Action σ β} (hx : Plain P x) (hf : ∀ a, P a → Plain Q (f a)) :
    Plain Q (x >>= f) := by
  refine ⟨hx.toQuiet.bind fun a ha => (hf a ha).toQuiet, fun m => ?_⟩
  have hrun : (x >>= f) m = Action.bind x f m := rfl
  have hm : (x m).2 = { m with next := (x m).2.next } := hx.machine m
  rw [hrun]
  unfold Action.bind
  rcases hxm : x m with ⟨o, m'⟩
  rw [hxm] at hm
  cases o with
  | ok a =>
    have hm : m' = { m with next := m'.next } := hm
    have hn := (hf a (hx.result m a (by rw [hxm]))).machine m'
    exact hn.trans (by rw [hm])
  | fault | panic | stalled => exact hm

private theorem plain_read {f : Machine σ → α} (h : ∀ m v s n, f (m.withTables v s n) = f m) :
    Plain (fun _ => True) (read f) :=
  ⟨quiet_read h, fun _ => rfl⟩

private theorem plain_ofOption {e : Fault} {o : Option α} (h : ∀ a, o = some a → P a) :
    Plain P (ofOption e o : Action σ α) := by
  cases o with
  | none => exact plain_fail e
  | some a => exact plain_pure (h a rfl)

/-- To take a number is plain. -/
theorem plain_freshNumber : Plain (fun _ => True) (freshNumber : Action σ Nat) :=
  ⟨quiet_freshNumber, fun _ => rfl⟩

private theorem plain_takeNumbers (f : (Nat → Nat) → Nat → Except Fault (α × Nat)) :
    Plain (fun _ => True) (takeNumbers f : Action σ α) := by
  refine ⟨quiet_takeNumbers f, fun m => ?_⟩
  unfold takeNumbers
  rcases f m.lots m.next with e | ⟨a, next⟩ <;> rfl

private theorem plain_placeholder (name : String) (shape : List IndexExpr) (dtype : DataType) :
    Plain (fun _ => True) (placeholder name shape dtype : Action σ Tensor) :=
  plain_freshNumber.bind fun _ _ => plain_pure trivial

private theorem plain_computed (name : String) (shape : List IndexExpr) (dtype : DataType)
    (tag : String) (inputs : List Tensor) :
    Plain (fun _ => True) (computed name shape dtype tag inputs : Action σ Tensor) :=
  plain_freshNumber.bind fun _ _ => plain_pure trivial

private theorem Quiet.withTarget (h : Quiet P x) (target : Target) :
    Quiet P (withTarget target x) := by
  refine ⟨fun m v s n => ?_, fun m => h.ends _, fun m a => h.result _ a⟩
  exact congrArg (fun r => (r.1, { r.2 with thread := r.2.thread.leave }))
    (h.tables { m with thread := m.thread.enter target } v s n)

private theorem Quiet.suspendIf (h : Quiet P x) (suspended : Bool) :
    Quiet P (suspendIf suspended x) := by
  cases suspended with
  | false => exact h
  | true =>
    refine ⟨fun m v s n => ?_, fun m => h.ends _, fun m a => h.result _ a⟩
    exact congrArg (fun r => (r.1, { r.2 with thread := r.2.thread.resume }))
      (h.tables { m with thread := m.thread.suspend } v s n)

/-- To note a task is quiet. -/
theorem quiet_noteTask (task : Task) : Calm (noteTask task : Action σ Unit) := by
  refine ⟨fun m v s n => ?_, fun m => ?_, fun _ _ _ => trivial⟩
  · have htuning : (m.withTables v s n).tuning = m.tuning := rfl
    have hcollects (t : TraceSession) : (m.withTables v s n).collects t = m.collects t := rfl
    simp only [noteTask, htuning, hcollects]
    split
    · split <;> rfl
    · rfl
  · unfold noteTask
    split
    · split <;> exact fun h => nomatch h
    · exact fun h => nomatch h

end Action

open TensorLowering.Action

/-! ### What a lowering keeps -/

/-- A property of actions together with one of their results. -/
abbrev Action.Property (σ : Type) : Type 1 := {α : Type} → (α → Prop) → Action σ α → Prop

/-- Plain actions have the property, and it is kept by all that a lowering does with actions. -/
structure Action.Closed (K : Action.Property σ) : Prop where
  plain : ∀ {α : Type} {P : α → Prop} {x : Action σ α}, Action.Plain P x → K P x
  bind : ∀ {α β : Type} {P : α → Prop} {Q : β → Prop} {x : Action σ α} {f : α → Action σ β},
    K P x → (∀ a, P a → K Q (f a)) → K Q (x >>= f)
  withTarget : ∀ {α : Type} {P : α → Prop} {x : Action σ α} (target : Target),
    K P x → K P (Action.withTarget target x)
  suspendIf : ∀ {α : Type} {P : α → Prop} {x : Action σ α} (suspended : Bool),
    K P x → K P (Action.suspendIf suspended x)

/-- The same if noting a task has the property, which a lowering does for itself. -/
structure Action.Regime (K : Action.Property σ) : Prop extends Action.Closed K where
  noteTask : ∀ task, K (fun _ => True) (Action.noteTask task)

/-- The same if all quiet actions have the property. -/
structure Action.Discipline (K : Action.Property σ) : Prop extends Action.Regime K where
  quiet : ∀ {α : Type} {P : α → Prop} {x : Action σ α}, Action.Quiet P x → K P x
  plain h := quiet h.toQuiet
  noteTask task := quiet (Action.quiet_noteTask task)

/-- To be quiet is a discipline. -/
theorem Action.discipline_quiet : Action.Discipline (σ := σ) Action.Quiet where
  quiet h := h
  bind hx hf := hx.bind hf
  withTarget target h := h.withTarget target
  suspendIf suspended h := h.suspendIf suspended

/-- An implementation whose actions have a property. -/
def Implementation.Keeps (K : Action.Property σ) (i : Implementation σ) : Prop :=
  ∀ attrs inputs type, K (fun _ => True) (i.compute attrs inputs type)

/-- An offer of such implementations. -/
def Offer.Keeps (K : Action.Property σ) (o : Offer σ) : Prop :=
  ∀ s ∈ o.specializations, ∀ i ∈ s.implementations, i.Keeps K

/-- Collaborators whose actions have a property. -/
structure Collaborators.Keeps (K : Action.Property σ) (c : Collaborators σ) : Prop where
  strategy : ∀ own op s, c.strategy? own op = some s →
    ∀ attrs inputs type target, K (Offer.Keeps K) (s attrs inputs type target)
  shapeFunction : ∀ own op s, c.shapeFunction? own op = some s →
    ∀ attrs inputs ranks, K (fun _ => True) (s attrs inputs ranks)
  build : ∀ a, K (fun _ => True) (c.build a)

/-- Candidates come from the offer. -/
theorem Offer.Keeps.applicable {K : Action.Property σ} {o : Offer σ} (h : o.Keeps K) :
    ∀ i ∈ o.applicable, i.Keeps K := by
  intro i hi
  obtain ⟨s, hs, hi⟩ := List.mem_flatMap.mp hi
  exact h s (List.mem_filter.mp hs).1 i hi

/-- What is first by priority is a candidate. -/
theorem firstByPriority?_mem {is : List (Implementation σ)} {i : Implementation σ}
    (h : firstByPriority? is = some i) : i ∈ is := by
  cases is with
  | nil => cases h
  | cons j js =>
    obtain rfl := Option.some.inj h
    clear h
    induction js generalizing j with
    | nil => exact List.mem_cons_self
    | cons k ks ih =>
      rw [List.foldl_cons]
      obtain h | h := List.mem_cons.mp (ih (byPriority j k))
      · rw [h]
        unfold byPriority
        split
        · exact List.mem_cons_self
        · exact List.mem_cons_of_mem _ List.mem_cons_self
      · exact List.mem_cons_of_mem _ (List.mem_cons_of_mem _ h)

private theorem plain_inputTensor (aspect : Aspect) (name : String) (t : TensorType) :
    Plain (fun _ => True) (inputTensor aspect name t : Action σ Tensor) := by
  cases aspect with
  | values => exact (plain_takeNumbers _).bind fun _ _ => plain_placeholder _ _ _
  | shapes => exact plain_placeholder _ _ _

private theorem plain_inputTensors (aspect : Aspect) (name : String) (ts : List TensorType) :
    Plain (fun _ => True) (inputTensors aspect name ts : Action σ (List Tensor)) := by
  induction ts with
  | nil => exact plain_pure trivial
  | cons t ts ih =>
    exact (plain_inputTensor aspect name t).bind fun _ _ => ih.bind fun _ _ => plain_pure trivial

/-- To make the placeholder of a constant is plain. -/
theorem plain_constantTensor (aspect : Aspect) (t : TensorType) :
    Plain (fun _ => True) (constantTensor aspect t : Action σ Tensor) := by
  cases aspect with
  | values => exact (plain_takeNumbers _).bind fun _ _ => plain_placeholder _ _ _
  | shapes => exact plain_computed _ _ _ _ _

/-- So is binding parameters. -/
theorem Walk.plain_bindParams (w : Walk σ) (vs : List Var) (s : Progress) :
    Plain (fun _ => True) (w.bindParams s vs) := by
  induction vs generalizing s with
  | nil => exact plain_pure trivial
  | cons v vs ih =>
    refine (plain_inputTensors _ _ _).bind fun ts _ => ?_
    exact (ih _).bind fun _ _ => plain_pure trivial

/-- Looking a strategy up is looking it up in what the collaborators keep. -/
theorem Collaborators.strategy_eq_ok {c : Collaborators σ} {op : String} {s : Strategy σ}
    {m n : Machine σ} (h : c.strategy op m = (.ok s, n)) : c.strategy? m.own op = some s := by
  unfold Collaborators.strategy at h
  cases hlookup : c.strategy? m.own op with
  | none =>
    rw [hlookup] at h
    cases h
  | some found =>
    rw [hlookup] at h
    obtain rfl := Outcome.ok.inj (Prod.mk.inj h).1
    rfl

private theorem Action.exists_of_withTarget {x : Action σ α} {target : Target} {a : α}
    {m n : Machine σ} (h : withTarget target x m = (.ok a, n)) : ∃ m' n', x m' = (.ok a, n') :=
  ⟨{ m with thread := m.thread.enter target }, _, Prod.ext (Prod.mk.inj h).1 rfl⟩

/-- What a strategy of the operator can offer for a call, whether it applies or not. -/
def Collaborators.Offers (c : Collaborators σ) (r : CallSite) (i : Implementation σ) : Prop :=
  ∃ own s, c.strategy? own r.op = some s ∧
    ∃ target m offer n, s r.attrs r.inputs r.type target m = (.ok offer, n) ∧
      ∃ sp ∈ offer.specializations, i ∈ sp.implementations

/-- Candidates are offered. -/
theorem Collaborators.offers_of_candidates {c : Collaborators σ} {r : CallSite} {target : Target}
    {is : List (Implementation σ)} {m n : Machine σ} (h : candidates c r target m = (.ok is, n)) :
    ∀ i ∈ is, c.Offers r i := by
  obtain ⟨s, m₁, hs, hafter⟩ := bind_eq_ok_iff.mp h
  obtain ⟨offer, m₂, hoffer, hend⟩ := bind_eq_ok_iff.mp hafter
  obtain rfl := Outcome.ok.inj (Prod.mk.inj hend).1
  obtain ⟨m₃, n₃, hrun⟩ := exists_of_withTarget hoffer
  intro i hi
  obtain ⟨sp, hsp, hi⟩ := List.mem_flatMap.mp hi
  have hsp : sp ∈ offer.specializations := (List.mem_filter.mp hsp).1
  exact ⟨m.own, s, strategy_eq_ok hs, target, m₃, offer, n₃, hrun, sp, hsp, hi⟩

namespace Action.Closed

variable {K : Action.Property σ} (hK : Action.Closed K) {c : Collaborators σ}

include hK

/-- To return a value has the property. -/
theorem pure {P : α → Prop} {a : α} (h : P a) : K P (pure a : Action σ α) := hK.plain (plain_pure h)

/-- The strategy of an operator, which is looked up in what the collaborators keep. -/
private theorem strategy (hc : c.Keeps K) (op : String) :
    K (fun s : Strategy σ => ∀ attrs inputs type target,
      K (Offer.Keeps K) (s attrs inputs type target)) (c.strategy op) := by
  have h (m : Machine σ) := plain_ofOption (σ := σ) (e := .noStrategy op) (hc.strategy m.own op)
  exact hK.plain ⟨⟨fun m => (h m).tables m, fun m => (h m).ends m, fun m => (h m).result m⟩,
    fun m => (h m).machine m⟩

private theorem shapeFunction (hc : c.Keeps K) (op : String) :
    K (fun s : ShapeFunction σ => ∀ attrs inputs ranks,
      K (fun _ => True) (s attrs inputs ranks)) (c.shapeFunction op) := by
  have h (m : Machine σ) := plain_ofOption (σ := σ) (e := .noShapeFunction op)
    (hc.shapeFunction m.own op)
  exact hK.plain ⟨⟨fun m => (h m).tables m, fun m => (h m).ends m, fun m => (h m).result m⟩,
    fun m => (h m).machine m⟩

/-- To look for candidates has the property, and so have they. -/
theorem candidates (hc : c.Keeps K) (r : CallSite) (target : Target) :
    K (fun is => ∀ i ∈ is, i.Keeps K) (candidates c r target) := by
  refine hK.bind (hK.strategy hc r.op) fun s hs => ?_
  refine hK.bind (hK.withTarget target (hs r.attrs r.inputs r.type target)) fun o ho => ?_
  exact hK.pure ho.applicable

private theorem callShapeFunction (hc : c.Keeps K) (call : Call) (inputs : List Tensor) :
    K (fun _ => True) (callShapeFunction c call inputs) := by
  refine hK.bind (hK.shapeFunction hc call.op) fun s hs => ?_
  refine hK.bind (hs call.attrs inputs _) fun outputs _ => ?_
  split
  · exact hK.pure trivial
  · exact hK.plain (plain_fail _)

end Action.Closed

namespace Action.Regime

variable {K : Action.Property σ} (hK : Action.Regime K) {c : Collaborators σ} {w : Walk σ}

include hK

/-- To compute a candidate has the property. -/
theorem computeTraced {i : Implementation σ} (hi : i.Keeps K) (r : CallSite) (target : Target) :
    K (fun _ => True) (computeTraced i r target) := by
  refine hK.bind (hi r.attrs r.inputs r.type) fun outputs _ => ?_
  cases nearestWorkload? outputs with
  | none => exact hK.pure trivial
  | some w => exact hK.bind (hK.noteTask _) fun _ _ => hK.pure trivial

private theorem computeAll (oracle : Oracle) (r : CallSite) (target : Target)
    {is : List (Implementation σ)} (h : ∀ i ∈ is, i.Keeps K) :
    K (fun _ => True) (computeAll oracle r target is) := by
  induction is with
  | nil => exact hK.pure trivial
  | cons i is ih =>
    refine hK.bind (hK.computeTraced (h i List.mem_cons_self) r target) fun _ _ => ?_
    exact hK.bind (ih fun j hj => h j (List.mem_cons_of_mem _ hj)) fun _ _ => hK.pure trivial

/-- To select one of the candidates has the property. -/
theorem select {is : List (Implementation σ)} (h : ∀ i ∈ is, i.Keeps K) (r : CallSite)
    (target : Target) (useCosts : Bool) :
    K (fun _ => True) (select is r target useCosts) := by
  unfold TensorLowering.select
  split
  · exact hK.plain (plain_fail _)
  · next best hbest =>
    split
    · refine hK.bind (hK.plain (plain_read fun _ _ _ _ => rfl)) fun oracle _ => ?_
      refine hK.bind (hK.computeAll oracle r target h) fun all _ => ?_
      have hchoose := plain_ofOption (σ := σ) (P := fun _ => True) (e := .noImplementation r.op)
        (o := Computed.choose? all) fun _ _ => trivial
      exact hK.bind (hK.plain hchoose) fun _ _ => hK.pure trivial
    · exact hK.bind (hK.computeTraced (h best (firstByPriority?_mem hbest)) r target) fun _ _ =>
        hK.pure trivial

private theorem lowerCall (hc : c.Keeps K) (target : Target) (useCosts : Bool) (call : Call)
    (inputs : List Tensor) : K (fun _ => True) (lowerCall c target useCosts call inputs) := by
  refine hK.bind (hK.plain (plain_takeNumbers _)) fun type _ => ?_
  refine hK.bind (hK.plain (plain_read fun _ _ _ _ => rfl)) fun excluded _ => ?_
  refine hK.suspendIf excluded ?_
  refine hK.bind (hK.candidates hc _ target) fun is his => ?_
  exact hK.bind (hK.select his _ target _) fun _ _ => hK.pure trivial

/-- To lower a call whose arguments were lowered has the property. -/
theorem finishCall (hw : w.collaborators.Keeps K) (s : Progress) (call : Call)
    (inputs : List Tensor) : K (fun _ => True) (w.finishCall s call inputs) := by
  unfold Walk.finishCall
  split
  · exact hK.bind (hK.lowerCall hw _ _ call inputs) fun _ _ => hK.pure trivial
  · exact hK.bind (hK.callShapeFunction hw call inputs) fun _ _ => hK.pure trivial

mutual

/-- A visit has the property. -/
theorem visit (hw : w.collaborators.Keeps K) (e : Expr) (s : Progress) :
    K (fun _ => True) (w.visit s e) := by
  unfold Walk.visit
  split
  · exact hK.pure trivial
  · match e with
    | .var id v =>
      dsimp only
      split
      · exact hK.pure trivial
      · exact hK.plain (plain_fail _)
    | .const id t data =>
      exact hK.bind (hK.plain (plain_constantTensor _ t)) fun _ _ => hK.pure trivial
    | .call id op attrs args type =>
      refine hK.bind (visitAll hw args s) fun _ _ => ?_
      exact hK.bind (hK.finishCall hw _ _ _) fun _ _ => hK.pure trivial
    | .tuple id fields => exact hK.bind (visitAll hw fields s) fun _ _ => hK.pure trivial
    | .proj id tuple index =>
      refine hK.bind (visit hw tuple s) fun _ _ => ?_
      dsimp only
      split
      · exact hK.pure trivial
      · exact hK.plain (plain_fail _)
    | .letIn id v value body =>
      refine hK.bind (visit hw value s) fun _ _ => ?_
      exact hK.bind (visit hw body _) fun _ _ => hK.pure trivial

/-- So has a visit of several nodes. -/
theorem visitAll (hw : w.collaborators.Keeps K) (es : List Expr) (s : Progress) :
    K (fun _ => True) (w.visitAll s es) := by
  unfold Walk.visitAll
  match es with
  | [] => exact hK.pure trivial
  | e :: es =>
    refine hK.bind (visit hw e s) fun _ _ => ?_
    exact hK.bind (visitAll hw es _) fun _ _ => hK.pure trivial

end

/-- **A lowering keeps what its collaborators keep.** -/
theorem lower (hw : w.collaborators.Keeps K) (f : Function) : K (fun _ => True) (w.lower f) := by
  refine hK.bind (hK.plain (w.plain_bindParams f.params .start)) fun _ _ => ?_
  exact hK.bind (hK.visit hw f.body _) fun _ _ => hK.pure trivial

end Action.Regime

/-- What collaborators keep, they keep if it says less. -/
theorem Collaborators.Keeps.imp {K K' : Action.Property σ} (hK' : Action.Closed K')
    (himp : ∀ {α : Type} {P : α → Prop} {x : Action σ α}, K P x → K' P x) {c : Collaborators σ}
    (hc : c.Keeps K) : c.Keeps K' := by
  refine ⟨fun own op s hs attrs inputs type target => ?_,
    fun own op s hs attrs inputs ranks => himp (hc.shapeFunction own op s hs attrs inputs ranks),
    fun a => himp (hc.build a)⟩
  have hoffer (o : Offer σ) (ho : o.Keeps K) : o.Keeps K' :=
    fun sp hsp i hi attrs inputs type => himp (ho sp hsp i hi attrs inputs type)
  have hstrategy := himp (hc.strategy own op s hs attrs inputs type target)
  rw [← bind_pure (s attrs inputs type target)]
  exact hK'.bind hstrategy fun o ho => hK'.pure (hoffer o ho)

/-! ### Quiet collaborators -/

/-- An implementation that issues no requests. -/
def Implementation.Quiet (i : Implementation σ) : Prop :=
  ∀ attrs inputs type, Calm (i.compute attrs inputs type)

/-- An offer of such implementations. -/
def Offer.Quiet (o : Offer σ) : Prop :=
  ∀ s ∈ o.specializations, ∀ i ∈ s.implementations, i.Quiet

/-- **Collaborators that issue no requests.** -/
structure Collaborators.Quiet (c : Collaborators σ) : Prop where
  strategy : ∀ own op s, c.strategy? own op = some s →
    ∀ attrs inputs type target, Action.Quiet Offer.Quiet (s attrs inputs type target)
  shapeFunction : ∀ own op s, c.shapeFunction? own op = some s →
    ∀ attrs inputs ranks, Calm (s attrs inputs ranks)
  build : ∀ a, Calm (c.build a)

/-- **With quiet collaborators a lowering is quiet.** -/
theorem Walk.quiet_lower {w : Walk σ} (hw : w.collaborators.Quiet) (f : Function) :
    Calm (w.lower f) := by
  have hkeeps : w.collaborators.Keeps Action.Quiet := ⟨hw.strategy, hw.shapeFunction, hw.build⟩
  exact Action.discipline_quiet.lower hkeeps f

/-- An implementation that makes a tensor for each one of the type of the result. -/
def Implementation.pointwise (name : String) (priority : Int) (workload : Option Workload) :
    Implementation Unit :=
  ⟨name, priority, fun _ inputs type => type.leaves.mapM fun t => do
    return .computed (← Action.freshNumber) name t.shape t.dtype name inputs workload⟩

/-- Collaborators that compute every operator alike: one implementation, which makes a tensor for
each one of the type of the result, and a shape function that makes a tensor for each rank. -/
def Collaborators.pointwise : Collaborators Unit where
  strategy? _ op := some fun _ _ _ _ => return ⟨[⟨none, [⟨op, 10, fun _ inputs type =>
    type.leaves.mapM fun t => Action.computed op t.shape t.dtype op inputs⟩]⟩]⟩
  shapeFunction? _ op := some fun _ inputs ranks =>
    ranks.mapM fun r => Action.computed op (shapeExtent r) .int64 op inputs
  build a := do return .ofArtifact (← Action.freshNumber) a

private theorem quiet_mapM {γ : Type} {f : γ → Action σ α} (h : ∀ c, Calm (f c)) (cs : List γ) :
    Calm (cs.mapM f) := by
  induction cs with
  | nil => exact quiet_pure trivial
  | cons c cs ih =>
    rw [List.mapM_cons]
    exact (h c).bind fun _ _ => ih.bind fun _ _ => quiet_pure trivial

/-- They issue no requests. -/
theorem Collaborators.quiet_pointwise : Collaborators.pointwise.Quiet := by
  refine ⟨fun own op s hs attrs inputs type target => ?_, fun own op s hs attrs inputs ranks => ?_,
    fun a => quiet_freshNumber.bind fun _ _ => quiet_pure trivial⟩
  · obtain rfl := Option.some.inj hs
    refine quiet_pure fun sp hsp i hi attrs inputs type => ?_
    obtain rfl := List.mem_singleton.mp hsp
    obtain rfl := List.mem_singleton.mp hi
    exact quiet_mapM (fun _ => (plain_computed _ _ _ _ _).toQuiet) _
  · obtain rfl := Option.some.inj hs
    exact quiet_mapM (fun _ => (plain_computed _ _ _ _ _).toQuiet) _

end TensorLowering
