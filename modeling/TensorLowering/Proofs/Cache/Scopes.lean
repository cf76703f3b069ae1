import TensorLowering.Proofs.Cache.Requests
import TensorLowering.Proofs.Tuning.Tasks

/-!
# Targets and suspensions are left as they were

A target is entered while a strategy runs, and tracing is suspended while an operator is lowered
that the trace session does not want. An action is *balanced* (`Action.Balanced`) if it leaves the
thread as it was, however it ends, and adds no task to any session where tracing is suspended. All
that a request does is balanced, if what collaborators do is (`Action.serving_balanced`); and so
requests inside requests are balanced at every depth (`Engine.balanced_nested`).

What a lowering does before a call is begun is balanced as well. So each call finds the thread of
the request, its strategy sees the target of the request on top of it, and implementations see the
thread of the request itself. From the moment on that tracing was suspended for a call, whatever is
invoked for it runs with tracing suspended (`Engine.nested_scoped`).
-/

namespace TensorLowering

open TensorLowering.Action

variable {σ α β : Type}

/-! ### Machines between which scopes are balanced -/

/-- The tasks of the session of a number. -/
def Tuning.tasks? (t : Tuning) (k : Nat) : Option (List Task) :=
  t.sessions[k]?.map TraceSession.tasks

/-- The first machine has become the second one: the thread is the same, and if tracing is suspended
no task was added to a session. -/
structure Machine.Restored (m n : Machine σ) : Prop where
  thread : n.thread = m.thread
  muted : 0 < m.thread.suspensions → ∀ k tasks, m.tuning.tasks? k = some tasks →
    n.tuning.tasks? k = some tasks

namespace Machine

variable {m n n' : Machine σ}

/-- The thread and the tuning are restored if they are the same. -/
theorem Restored.of_eq (hthread : n.thread = m.thread) (htuning : n.tuning = m.tuning) :
    m.Restored n := by
  refine ⟨hthread, fun _ k tasks h => ?_⟩
  rw [htuning]
  exact h

theorem Restored.refl (m : Machine σ) : m.Restored m := .of_eq rfl rfl

theorem Restored.trans (h : m.Restored n) (h' : n.Restored n') : m.Restored n' := by
  refine ⟨h'.thread.trans h.thread, fun hsuspended k tasks htasks => ?_⟩
  exact h'.muted (by rwa [h.thread]) k tasks (h.muted hsuspended k tasks htasks)

private theorem Restored.modifyCache (h : m.Restored n) (aspect : Aspect) (f : Cache → Cache) :
    m.Restored (n.modifyCache aspect f) :=
  h.trans (.of_eq (by cases aspect <;> rfl) (by cases aspect <;> rfl))

end Machine

/-! ### Balanced actions -/

/-- **An action that opens and closes scopes in a balanced way**, however it ends; its results have
a property. -/
structure Action.Balanced (P : α → Prop) (x : Action σ α) : Prop where
  restored : ∀ m : Machine σ, m.Restored (x m).2
  result : ∀ m a, (x m).1 = .ok a → P a

namespace Action

variable {P : α → Prop} {Q : β → Prop} {x : Action σ α}

private theorem Plain.balanced (h : Plain P x) : Balanced P x := by
  refine ⟨fun m => .of_eq ?_ ?_, h.result⟩
  · rw [h.machine]
  · rw [h.machine]

/-- What is done after something balanced starts from a restored machine. -/
theorem Balanced.bind {f : α → Action σ β} (hx : Balanced P x) (hf : ∀ a, P a → Balanced Q (f a)) :
    Balanced Q (x >>= f) :=
  ⟨fun m => bind_machine_of (hx.restored m) fun a ha =>
      (hx.restored m).trans ((hf a (hx.result m a ha)).restored _),
    bind_result hx.result fun a ha => (hf a ha).result⟩

private theorem Balanced.withTarget (h : Balanced P x) (target : Target) :
    Balanced P (withTarget target x) := by
  refine ⟨fun m => ?_, fun m => h.result { m with thread := m.thread.enter target }⟩
  have hinside := h.restored { m with thread := m.thread.enter target }
  exact ⟨congrArg Thread.leave hinside.thread, hinside.muted⟩

private theorem Balanced.suspendIf (h : Balanced P x) (suspended : Bool) :
    Balanced P (suspendIf suspended x) := by
  cases suspended with
  | false => exact h
  | true =>
    refine ⟨fun m => ?_, fun m => h.result { m with thread := m.thread.suspend }⟩
    have hinside := h.restored { m with thread := m.thread.suspend }
    exact ⟨congrArg Thread.resume hinside.thread, fun _ => hinside.muted (Nat.succ_pos _)⟩

private theorem balanced_noteTask (task : Task) :
    Balanced (fun _ => True) (noteTask task : Action σ Unit) := by
  refine ⟨fun m => ⟨?_, fun hsuspended k tasks h => ?_⟩, fun _ _ _ => trivial⟩
  · unfold noteTask
    split
    · split <;> rfl
    · rfl
  · rw [noteTask_of_suspended task hsuspended]
    exact h

private theorem Balanced.settle (h : Balanced P x) : Balanced (fun _ => True) (settle x) := by
  refine ⟨fun m => ?_, fun _ _ _ => trivial⟩
  have hx := h.restored m
  unfold Action.settle
  rcases hxm : x m with ⟨o, n⟩
  rw [hxm] at hx
  cases o <;> exact hx

private theorem Balanced.mapFault (h : Balanced P x) (f : Fault → Fault) :
    Balanced P (mapFault f x) := by
  refine ⟨h.restored, fun m a ha => h.result m a ?_⟩
  have ha : (x m).1.mapFault f = .ok a := ha
  cases ho : (x m).1 with
  | ok b => rwa [ho] at ha
  | fault | panic | stalled =>
    rw [ho] at ha
    cases ha

/-- Slots are filled, taken away and released without touching thread and tuning. -/
theorem Balanced.obtain {aspect : Aspect} {key : CacheKey} {lower : Action σ Artifact}
    (h : Balanced (fun _ => True) lower) :
    Balanced (fun _ => True) (obtain aspect key lower) := by
  refine ⟨fun m => ?_, fun _ _ _ => trivial⟩
  have hbegun (f : Cache → Cache) : m.Restored (lower (m.modifyCache aspect f)).2 :=
    ((Machine.Restored.refl m).modifyCache aspect f).trans (h.restored _)
  unfold TensorLowering.obtain
  rcases (m.cache aspect).slotFor key with ⟨slot, cache⟩
  dsimp only
  split
  · exact .refl m
  · split
    · exact (Machine.Restored.refl m).modifyCache aspect fun _ => cache.countUse slot
    · have hlowered := hbegun fun _ => cache.setBusy slot true
      rcases hrun : lower (m.modifyCache aspect fun _ => cache.setBusy slot true) with ⟨o, n⟩
      rw [hrun] at hlowered
      cases o with
      | ok a => exact hlowered.modifyCache aspect fun c => (c.fill slot a).setBusy slot false
      | fault e => exact hlowered.modifyCache aspect fun c => (c.detach key slot).setBusy slot false
      | panic => exact hlowered.modifyCache aspect fun c => c.setBusy slot false
      | stalled => exact hlowered

/-- **What a request does with the engine** is balanced. -/
theorem serving_balanced : Serving (σ := σ) Balanced where
  plain h := h.balanced
  bind hx hf := hx.bind hf
  withTarget target h := h.withTarget target
  suspendIf suspended h := h.suspendIf suspended
  noteTask := balanced_noteTask
  mapFault f h := h.mapFault f
  settle h := h.settle
  stall := ⟨fun m => .refl m, fun _ _ h => nomatch h⟩
  read _ := ⟨fun m => .refl m, fun _ _ _ => trivial⟩
  touch aspect n f _ := ⟨fun m => (Machine.Restored.refl m).modifyCache aspect fun c =>
    c.modifyEntry n f, fun _ _ _ => trivial⟩
  clear := ⟨fun m => .of_eq rfl rfl, fun _ _ _ => trivial⟩
  obtainArtifact g aspect key h := by
    have hname (base : String) : Balanced (fun _ => True) (claimName base : Action σ String) :=
      ⟨fun m => .of_eq rfl rfl, fun _ _ _ => trivial⟩
    refine Balanced.obtain ?_
    rw [g.lowerArtifact_eq_claim]
    refine h.bind fun _ _ => (hname _).bind fun _ _ => ?_
    exact plain_freshNumber.balanced.bind fun _ _ => (plain_pure trivial).balanced

end Action

/-! ### What is invoked for a call -/

/-- The targets that are entered where something is invoked, on a thread where these were: a
strategy has another one on top. -/
def Invocation.targets (target : Target) (entered : List Target) : Invocation σ → List Target
  | .strategy .. => target :: entered
  | .implementation .. | .shapeFunction .. => entered

/-- It runs on a machine that has come from the first one, possibly with the target entered. -/
structure Invocation.On (target : Target) (m : Machine σ) (v : Invocation σ) : Prop where
  targets : v.machine.thread.targets = v.targets target m.thread.targets
  suspensions : v.machine.thread.suspensions = m.thread.suspensions
  muted : 0 < m.thread.suspensions → ∀ k tasks, m.tuning.tasks? k = some tasks →
    v.machine.tuning.tasks? k = some tasks

section

variable {w : Walk σ} {m n : Machine σ} {c : Begun σ}

/-- What comes on the way to a call is balanced. -/
private theorem Walk.Begins.restored {f : Function} (hc : w.Begins f m c)
    (hw : w.collaborators.Keeps Balanced) : m.Restored c.machine := by
  have hregime := (serving_balanced (σ := σ)).toRegime
  have hvisit (s : Progress) (e : Expr) (n : Machine σ) {r n'} (hrun : w.visit s e n = (r, n')) :
      n.Restored n' := by
    have hrestored := (hregime.visit hw e s).restored n
    rwa [hrun] at hrestored
  have hvisitAll (s : Progress) (es : List Expr) (n : Machine σ) {r n'}
      (hrun : w.visitAll s es n = (r, n')) : n.Restored n' := by
    have hrestored := (hregime.visitAll hw es s).restored n
    rwa [hrun] at hrestored
  obtain ⟨b, ⟨inputs, s, n, hparams, hreach⟩, hat⟩ := hc
  have hbody : m.Restored n := by
    have hrestored := (w.plain_bindParams f.params .start).balanced.restored m
    rwa [hparams] at hrestored
  have hb : m.Restored b.machine := by
    clear hat
    induction hreach with
    | refl => exact hbody
    | tail _ hlead ih =>
      cases hlead with
      | part _ _ hrun => exact ih.trans (hvisitAll _ _ _ hrun)
      | body _ _ hrun => exact ih.trans (hvisit _ _ _ hrun)
  obtain ⟨s', hargs⟩ := hat.args
  exact hb.trans (hvisitAll _ _ _ hargs)

/-- Lowering a call is balanced. -/
private theorem Begun.restored_after (c : Begun σ) (hw : w.collaborators.Keeps Balanced) :
    c.machine.Restored (c.after w) :=
  (serving_balanced.toRegime.finishCall hw .start c.node.call c.inputs).restored c.machine

/-- What is invoked while a candidate is chosen finds the thread on which that began. -/
private theorem Walk.on_of_mem_selecting (hw : w.collaborators.Keeps Balanced) {call : Call}
    {site : CallSite} {v : Invocation σ} (hv : v ∈ w.selecting call site m) :
    v.On w.target m := by
  have hregime := (serving_balanced (σ := σ)).toRegime
  have hcandidates := hregime.candidates hw site w.target
  have hall : m.Restored (w.choose call site m).2 ∧ ∀ v ∈ w.selecting call site m,
      v.On w.target m := by
    refine selecting_log (fun done n => m.Restored n ∧ ∀ v ∈ done, v.On w.target m) [] ?_ ?_
      ⟨.refl m, nofun⟩
    · intro s _
      refine ⟨hcandidates.restored m, fun v hv => ?_⟩
      obtain rfl := List.mem_singleton.mp hv
      exact ⟨rfl, rfl, fun _ _ _ h => h⟩
    · intro is n hfound done n' i hi ⟨hrestored, hdone⟩
      have hkeeps := hcandidates.result m is (congrArg Prod.fst hfound) i hi
      refine ⟨hrestored.trans ((hregime.computeTraced hkeeps site w.target).restored n'), ?_⟩
      intro v hv
      obtain hv | hv := List.mem_append.mp hv
      · exact hdone v hv
      · obtain rfl := List.mem_singleton.mp hv
        exact ⟨congrArg Thread.targets hrestored.thread,
          congrArg Thread.suspensions hrestored.thread, hrestored.muted⟩
  exact hall.2 v hv

/-- The machine that is entered for a call, or that of the call itself if its shapes are wanted. -/
private theorem Walk.on_of_mem_invocations (hw : w.collaborators.Keeps Balanced) {v : Invocation σ}
    (hv : v ∈ w.invocations c) :
    (w.aspect = .values ∧ ∃ next, v.On w.target (c.entered next)) ∨
      w.aspect = .shapes ∧ v.On w.target c.machine := by
  obtain ⟨haspect, type, next, -, hselecting⟩ | ⟨haspect, f, -, rfl⟩ := mem_invocations hv
  · exact Or.inl ⟨haspect, next, on_of_mem_selecting hw hselecting⟩
  · exact Or.inr ⟨haspect, rfl, rfl, fun _ _ _ h => h⟩

private theorem Begun.targets_entered (c : Begun σ) (next : Nat) :
    (c.entered next).thread.targets = c.machine.thread.targets := by
  unfold Begun.entered
  dsimp only
  split <;> rfl

/-- A call of an operator that is not wanted adds no tasks. -/
private theorem Begun.tasks?_after_of_excludes (hw : w.collaborators.Keeps Balanced)
    (haspect : w.aspect = .values) (hc : c.machine.excludes c.node.call.op = true) {k : Nat}
    {tasks : List Task} (htasks : c.machine.tuning.tasks? k = some tasks) :
    (c.after w).tuning.tasks? k = some tasks := by
  cases hnormal : c.node.call.type.normalize c.machine.lots c.machine.next with
  | error e =>
    rw [Walk.after_of_error haspect hnormal]
    exact htasks
  | ok r =>
    let n : Machine σ := { c.machine with next := r.2, thread := c.machine.thread.suspend }
    have hchoose := serving_balanced.toRegime.choose hw c.node.call (c.site r.1)
    rw [Walk.after_of_ok haspect hnormal, hc]
    exact (hchoose.restored n).muted (Nat.succ_pos _) k tasks htasks

/-- Where anything is invoked for it, tracing is suspended, and no task was added. -/
private theorem Walk.muted_of_mem_invocations (hw : w.collaborators.Keeps Balanced)
    (haspect : w.aspect = .values) (hc : c.machine.excludes c.node.call.op = true) {k : Nat}
    {tasks : List Task} (htasks : c.machine.tuning.tasks? k = some tasks) {v : Invocation σ}
    (hv : v ∈ w.invocations c) :
    0 < v.machine.thread.suspensions ∧ v.machine.tuning.tasks? k = some tasks := by
  obtain ⟨-, next, hon⟩ | ⟨hshapes, -⟩ := on_of_mem_invocations hw hv
  · have hentered : c.entered next =
        { c.machine with next, thread := c.machine.thread.suspend } := if_pos hc
    have hsuspended : 0 < (c.entered next).thread.suspensions := by
      rw [hentered]
      exact Nat.succ_pos _
    refine ⟨hon.suspensions ▸ hsuspended, hon.muted hsuspended k tasks ?_⟩
    rw [hentered]
    exact htasks
  · rw [haspect] at hshapes
    cases hshapes

end

/-! ### Requests inside requests -/

/-- The scopes of an engine: what requests do with the thread, and what collaborators find there. -/
structure Engine.Scoped (g : Engine σ) : Prop where
  /-- However a request ends, the thread is as it was before. -/
  restored : ∀ r m, (g.serve r m).2.thread = m.thread
  /-- A request on a thread with suspended tracing adds no task to a session that is there. -/
  muted : ∀ r m, 0 < m.thread.suspensions → ∀ k tasks, m.tuning.tasks? k = some tasks →
    (g.serve r m).2.tuning.tasks? k = some tasks
  /-- A call that is begun while a function is lowered finds the thread on which the lowering began,
  and leaves it so, however it ends. -/
  calls : ∀ aspect key m c, (g.walk aspect key).Begins key.source m c →
    c.machine.thread = m.thread ∧ (c.after (g.walk aspect key)).thread = m.thread
  /-- Strategies find the target of the request on top of the targets that were entered before, and
  implementations and shape functions find just those. -/
  targets : ∀ aspect key m c, (g.walk aspect key).Begins key.source m c →
    ∀ v ∈ (g.walk aspect key).invocations c,
      v.machine.thread.targets = v.targets key.target m.thread.targets
  /-- If the session that collects tasks does not want an operator, then it has no more tasks when a
  call of the operator was lowered, however that ends, nor where anything is invoked for it; and
  tracing is suspended there. -/
  excluded : ∀ key m c, (g.walk .values key).Begins key.source m c →
    ∀ k s, c.machine.Collecting k s → s.covers c.node.call.op = false →
      (c.after (g.walk .values key)).tuning.tasks? k = some s.tasks ∧
        ∀ v ∈ (g.walk .values key).invocations c,
          0 < v.machine.thread.suspensions ∧ v.machine.tuning.tasks? k = some s.tasks

/-- **Scopes are closed on every way out.** -/
theorem Engine.scoped_of_keeps {g : Engine σ} (hg : g.collaborators.Keeps Balanced) :
    g.Scoped := by
  have hserve (r : Request) (m : Machine σ) : m.Restored (g.serve r m).2 := by
    have hrequest := (serving_balanced.request hg r).restored m
    unfold Engine.request at hrequest
    split at hrequest
    · exact hrequest
    · exact hrequest
  constructor
  case restored => exact fun r m => (hserve r m).thread
  case muted => exact fun r m => (hserve r m).muted
  case calls =>
    intro aspect key m c hc
    have hbegun := hc.restored (w := g.walk aspect key) hg
    exact ⟨hbegun.thread, (hbegun.trans (c.restored_after hg)).thread⟩
  case targets =>
    intro aspect key m c hc v hv
    have hbegun := congrArg Thread.targets (hc.restored (w := g.walk aspect key) hg).thread
    obtain ⟨-, next, hon⟩ | ⟨-, hon⟩ := Walk.on_of_mem_invocations hg hv
    · rw [hon.targets, c.targets_entered, hbegun]
      rfl
    · rw [hon.targets, hbegun]
      rfl
  case excluded =>
    intro key m c _ k s hcollecting hcovers
    have hexcludes : c.machine.excludes c.node.call.op = true := by
      rw [hcollecting.excludes, hcovers]
      rfl
    have htasks : c.machine.tuning.tasks? k = some s.tasks := by
      rw [Tuning.tasks?, hcollecting.session]
      rfl
    have hafter := Begun.tasks?_after_of_excludes (w := g.walk .values key) hg rfl hexcludes htasks
    exact ⟨hafter, fun v hv => Walk.muted_of_mem_invocations hg rfl hexcludes htasks hv⟩

/-- What collaborators do is balanced at every depth. -/
theorem Engine.balanced_nested (config : Config)
    {C : (Request → Action σ Answer) → Collaborators σ}
    (hC : ∀ ask, (∀ r, Balanced (fun _ => True) (ask r)) → (C ask).Keeps Balanced) (depth : Nat) :
    (nested config C depth).collaborators.Keeps Balanced := by
  induction depth with
  | zero => exact hC _ fun _ => serving_balanced.stall
  | succ depth ih => exact hC _ (serving_balanced.request ih)

/-- **Targets and suspensions are left as they were**, whatever requests balanced collaborators
issue, however deep, and however all of this ends. -/
theorem Engine.nested_scoped (config : Config)
    {C : (Request → Action σ Answer) → Collaborators σ}
    (hC : ∀ ask, (∀ r, Balanced (fun _ => True) (ask r)) → (C ask).Keeps Balanced) (depth : Nat) :
    (nested config C depth).Scoped :=
  scoped_of_keeps (balanced_nested config hC depth)

/-! ### An example -/

/-- Collaborators whose strategies and implementations issue requests. Everything they compute can
be tuned. -/
def Collaborators.consulting (requests : String → List Request)
    (ask : Request → Action Unit Answer) : Collaborators Unit where
  strategy? _ op := some fun _ _ _ _ => do
    Engine.askAll ask (requests op)
    return ⟨[⟨none, [⟨op, 10, fun _ _ _ => do
      Engine.askAll ask (requests op)
      return [.tunable op]⟩]⟩]⟩
  shapeFunction? _ _ := none
  build a := return .ofArtifact 0 a

private theorem Collaborators.balanced_consulting (requests : String → List Request)
    {ask : Request → Action Unit Answer} (hask : ∀ r, Balanced (fun _ => True) (ask r)) :
    (consulting requests ask).Keeps Balanced := by
  have hclosed := (serving_balanced (σ := Unit)).toClosed
  refine ⟨fun own op s hs attrs inputs type target => ?_, nofun, fun a => hclosed.pure trivial⟩
  obtain rfl := Option.some.inj hs
  refine hclosed.bind (hclosed.askAll hask _) fun _ _ => hclosed.pure ?_
  intro sp hsp i hi attrs inputs type
  obtain rfl := List.mem_singleton.mp hsp
  obtain rfl := List.mem_singleton.mp hi
  exact hclosed.bind (hclosed.askAll hask _) fun _ _ => hclosed.pure trivial

/-- A session wants `inner` only. When `inner` is lowered it has a task; but it has none if that
happens in the course of lowering `outer`. -/
theorem Engine.nested_scoped_excluded :
    let ty : Ty := .tensor ⟨[.imm 4 .int64], .float 32⟩
    let f (op : String) : Function :=
      .ofBody [⟨0, "x", ty⟩] (.call 1 op .empty [.var 0 ⟨0, "x", ty⟩] ty)
    let target : Target := ⟨.llvm, .empty⟩
    let lower (op : String) : Request := .lower .values (.function (f op)) (some target)
    let g := nested .standard
      (Collaborators.consulting fun op => if op = "outer" then [lower "inner"] else []) 1
    let m : Machine Unit :=
      { Machine.initial () 2 with tuning := ⟨.fallback, [.start (some ["inner"])], some 0⟩ }
    g.Scoped ∧ (g.serve (lower "outer") m).2.tuning.tasks? 0 = some [] ∧
      (g.serve (lower "inner") m).2.tuning.tasks? 0 = some [⟨target, ⟨"inner", []⟩⟩] := by
  intro ty f target lower g m
  refine ⟨Engine.nested_scoped .standard (fun ask hask => ?_) 1, ?_, ?_⟩
  · exact Collaborators.balanced_consulting _ hask
  · decide +kernel
  · decide +kernel

end TensorLowering
