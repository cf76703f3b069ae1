import TensorLowering.Proofs.Lowering.Invocations

/-!
# The tasks that a lowering leaves to a tuner

While a function is lowered for its values, the current trace session collects the workloads that
are met. `Walk.lower_tasks` says which tasks the session has in the end: those that it had, and then
the first occurrences of new ones, of the implementations that were computed for the calls that were
begun, in order. Calls of operators that the session does not want add nothing, since tracing is
suspended while they are lowered. This holds in whatever way the lowering ends, if the collaborators
leave tuning alone (`Action.SparesTuning`).

Collecting tasks one after the other is appending the first occurrences of the new ones at once
(`TraceSession.collectAll_eq`). So all that has to be known of a step is which tasks it adds
(`Added`): an implementation that was computed adds the workload behind its outputs, and a call adds
what its implementations add (`Added.after`).
-/

namespace TensorLowering

open TensorLowering.Action

variable {σ α β : Type}

/-! ### Collecting several tasks -/

/-- The first occurrences in a list are all different. -/
private theorem nodup_eraseDups [BEq α] [LawfulBEq α] : (l : List α) → l.eraseDups.Nodup
  | [] => List.nodup_nil
  | a :: l => by
    rw [List.eraseDups_cons, List.nodup_cons]
    refine ⟨fun hmem => ?_, nodup_eraseDups _⟩
    simpa using (List.mem_filter.mp (List.mem_eraseDups.mp hmem)).2
termination_by l => l.length
decreasing_by exact Nat.lt_succ_of_le (List.length_filter_le _ l)

namespace TraceSession

/-- Collect tasks, one after the other. -/
def collectAll (s : TraceSession) (tasks : List Task) : TraceSession := tasks.foldl collect s

private theorem collectAll_concat (s : TraceSession) (tasks : List Task) (t : Task) :
    s.collectAll (tasks ++ [t]) = (s.collectAll tasks).collect t :=
  List.foldl_append

/-- **Collecting tasks appends the first occurrences of those that are new.** -/
theorem collectAll_eq (s : TraceSession) (tasks : List Task) : s.collectAll tasks =
    { s with tasks := s.tasks ++ (tasks.filter (· ∉ s.tasks)).eraseDups } := by
  induction tasks generalizing s with
  | nil => simp [collectAll]
  | cons t tasks ih =>
    have hstep : s.collectAll (t :: tasks) = (s.collect t).collectAll tasks := rfl
    rw [hstep, ih]
    by_cases ht : t ∈ s.tasks
    · simp [collect, ht]
    · -- tasks behind it that are equal to it are not new any more
      have hfilter : tasks.filter (· ∉ s.tasks ++ [t]) =
          (tasks.filter (· ∉ s.tasks)).filter (fun u => !u == t) := by
        rw [List.filter_filter]
        refine List.filter_congr fun u _ => ?_
        simp [Bool.and_comm, beq_eq_decide]
      simp only [collect, if_neg ht, hfilter, List.append_assoc]
      rw [List.filter_cons_of_pos (by simpa using ht), List.eraseDups_cons]
      rfl

private theorem nodup_collectAll {s : TraceSession} (h : s.tasks.Nodup) (tasks : List Task) :
    (s.collectAll tasks).tasks.Nodup := by
  rw [collectAll_eq, List.nodup_append]
  refine ⟨h, nodup_eraseDups _, ?_⟩
  rintro a ha b hb rfl
  simpa [ha] using (List.mem_filter.mp (List.mem_eraseDups.mp hb)).2

end TraceSession

/-! ### What a step adds -/

/-- The current session, and that it collects tasks on this thread. -/
structure Machine.Collecting (m : Machine σ) (k : Nat) (s : TraceSession) : Prop where
  current : m.tuning.current = some k
  session : m.tuning.sessions[k]? = some s
  collects : m.collects s = true

/-- The session that collects tasks decides which operators are excluded. -/
theorem Machine.Collecting.excludes {m : Machine σ} {k : Nat} {s : TraceSession}
    (h : m.Collecting k s) (op : String) : m.excludes op = !s.covers op := by
  have hsession : m.tuning.session? = some s := by
    rw [Tuning.session?, h.current]
    exact h.session
  simp only [Machine.excludes, hsession, h.collects, Bool.true_and]

/-- Nothing was done to tuning since `m`, but that the session `k` has collected these tasks. -/
structure Added (m : Machine σ) (k : Nat) (tasks : List Task) (n : Machine σ) : Prop where
  tuning : n.tuning = m.tuning.modifySession k fun s => s.collectAll tasks
  suspensions : n.thread.suspensions = m.thread.suspensions

section

variable {m n n' : Machine σ} {k : Nat} {s : TraceSession} {tasks : List Task} {target : Target}
  {outputs : List Tensor}

/-- At the start nothing was added. -/
theorem Added.start (m : Machine σ) (k : Nat) : Added m k [] m := by
  refine ⟨?_, rfl⟩
  have hid : (fun s : TraceSession => s.collectAll []) = id := rfl
  rw [Tuning.modifySession, hid, List.modify_id]

/-- What was added depends only on the trace sessions and on whether they are suspended. -/
theorem Added.of_eq (h : Added m k tasks n) (htuning : n'.tuning = n.tuning)
    (hsuspensions : n'.thread.suspensions = n.thread.suspensions) : Added m k tasks n' :=
  ⟨htuning.trans h.tuning, hsuspensions.trans h.suspensions⟩

/-- Changing a session, only what becomes of it matters. -/
private theorem Tuning.modifySession_congr {t : Tuning} {f g : TraceSession → TraceSession}
    (hs : t.sessions[k]? = some s) (h : f s = g s) : t.modifySession k f = t.modifySession k g := by
  have hsessions : t.sessions.modify k f = t.sessions.modify k g := by
    refine List.ext_getElem? fun i => ?_
    rw [List.getElem?_modify, List.getElem?_modify]
    by_cases hi : k = i
    · rw [← hi, hs]
      simp [h]
    · simp [hi]
  rw [modifySession, hsessions]
  rfl

/-- The session still collects tasks when it has collected some. -/
private theorem Added.collecting (h : Added m k tasks n) (hm : m.Collecting k s) :
    n.Collecting k (s.collectAll tasks) := by
  have hcollects := hm.collects
  refine ⟨?_, ?_, ?_⟩
  · rw [h.tuning]
    exact hm.current
  · rw [h.tuning, Tuning.modifySession, List.getElem?_modify_eq, hm.session]
    rfl
  · rw [Machine.collects, TraceSession.collectAll_eq, h.suspensions]
    exact hcollects

/-- One task more. -/
private theorem Added.note (h : Added m k tasks n) (hm : m.Collecting k s) (task : Task) :
    Added m k (tasks ++ [task]) (noteTask task n).2 := by
  obtain ⟨hcurrent, hsession, hcollects⟩ := h.collecting hm
  have hfound : n.tuning.session? = some (s.collectAll tasks) := by
    rw [Tuning.session?, hcurrent]
    exact hsession
  have hrun : (noteTask task n).2 =
      { n with tuning := n.tuning.modifySession k fun s => s.collect task } := by
    simp only [noteTask, hcurrent, hfound, hcollects, if_true]
  refine ⟨?_, by rw [hrun]; exact h.suspensions⟩
  have hcollect : (fun s : TraceSession => s.collect task) ∘
      (fun s : TraceSession => s.collectAll tasks) = fun s => s.collectAll (tasks ++ [task]) := by
    funext s
    exact (s.collectAll_concat tasks task).symm
  rw [hrun, h.tuning]
  simp only [Tuning.modifySession, List.modify_modify_eq, hcollect]

/-- The task for the workload behind some outputs, if there is one. -/
def tasksBehind (target : Target) (outputs : List Tensor) : List Task :=
  ((nearestWorkload? outputs).map (Task.mk target)).toList

private theorem Added.noting (h : Added m k tasks n) (hm : m.Collecting k s) (target : Target)
    (outputs : List Tensor) :
    Added m k (tasks ++ tasksBehind target outputs) (n.noting target outputs) := by
  unfold Machine.noting tasksBehind
  cases nearestWorkload? outputs with
  | some w => exact h.note hm ⟨target, w⟩
  | none =>
    rw [Option.map_none, Option.toList_none, List.append_nil]
    exact h

end

/-! ### Collaborators that leave tuning alone -/

namespace Action

/-- Where tracing is suspended at least `d` times, the action leaves tuning as it is, and tracing as
often suspended as it was. -/
structure SparesTuning (d : Nat) (P : α → Prop) (x : Action σ α) : Prop where
  tuning : ∀ m, d ≤ m.thread.suspensions → (x m).2.tuning = m.tuning
  suspensions : ∀ m, d ≤ m.thread.suspensions →
    (x m).2.thread.suspensions = m.thread.suspensions
  result : ∀ m a, (x m).1 = .ok a → P a

variable {P : α → Prop} {Q : β → Prop} {x : Action σ α} {d d' : Nat}

/-- The thread may be suspended more deeply. -/
theorem SparesTuning.mono (h : SparesTuning d P x) (hd : d ≤ d') : SparesTuning d' P x :=
  ⟨fun m hm => h.tuning m (Nat.le_trans hd hm), fun m hm => h.suspensions m (Nat.le_trans hd hm),
    h.result⟩

private theorem Plain.sparesTuning (h : Plain P x) : SparesTuning d P x := by
  refine ⟨fun m _ => ?_, fun m _ => ?_, h.result⟩
  · rw [h.machine]
  · rw [h.machine]

/-- Two actions that spare the tuning do so one after the other. -/
theorem SparesTuning.bind {f : α → Action σ β} (hx : SparesTuning d P x)
    (hf : ∀ a, P a → SparesTuning d Q (f a)) : SparesTuning d Q (x >>= f) := by
  have hle (m : Machine σ) (hm : d ≤ m.thread.suspensions) : d ≤ (x m).2.thread.suspensions :=
    (hx.suspensions m hm).symm ▸ hm
  refine ⟨fun m hm => bind_machine_of (R := fun n => n.tuning = m.tuning) (hx.tuning m hm)
      fun a ha => ((hf a (hx.result m a ha)).tuning _ (hle m hm)).trans (hx.tuning m hm),
    fun m hm => bind_machine_of (R := fun n => n.thread.suspensions = m.thread.suspensions)
      (hx.suspensions m hm) fun a ha =>
        ((hf a (hx.result m a ha)).suspensions _ (hle m hm)).trans (hx.suspensions m hm),
    bind_result hx.result fun a ha => (hf a ha).result⟩

private theorem SparesTuning.withTarget (h : SparesTuning d P x) (target : Target) :
    SparesTuning d P (withTarget target x) :=
  ⟨fun m hm => h.tuning { m with thread := m.thread.enter target } hm,
    fun m hm => h.suspensions { m with thread := m.thread.enter target } hm,
    fun m a => h.result { m with thread := m.thread.enter target } a⟩

private theorem SparesTuning.suspendIf (h : SparesTuning d P x) (suspended : Bool) :
    SparesTuning d P (suspendIf suspended x) := by
  cases suspended with
  | false => exact h
  | true =>
    have hle (m : Machine σ) (hm : d ≤ m.thread.suspensions) : d ≤ m.thread.suspend.suspensions :=
      Nat.le_succ_of_le hm
    exact ⟨fun m hm => h.tuning { m with thread := m.thread.suspend } (hle m hm),
      fun m hm => congrArg Nat.pred
        (h.suspensions { m with thread := m.thread.suspend } (hle m hm)),
      fun m a => h.result { m with thread := m.thread.suspend } a⟩

/-- While tracing is suspended no task is collected. -/
theorem noteTask_of_suspended (task : Task) {m : Machine σ} (h : 0 < m.thread.suspensions) :
    noteTask task m = (.ok (), m) := by
  have hcollects (s : TraceSession) : m.collects s = false := by
    rw [Machine.collects, beq_false_of_ne (Nat.ne_of_gt h), Bool.and_false]
  unfold noteTask
  split
  · rw [hcollects]
    rfl
  · rfl

private theorem closed_sparesTuning (d : Nat) : Closed (σ := σ) (SparesTuning d) where
  plain h := h.sparesTuning
  bind hx hf := hx.bind hf
  withTarget target h := h.withTarget target
  suspendIf suspended h := h.suspendIf suspended

/-- While tracing is suspended, noting a task leaves tuning alone as well. -/
private theorem regime_sparesTuning (hd : 0 < d) : Regime (σ := σ) (SparesTuning d) where
  toClosed := closed_sparesTuning d
  noteTask task := by
    have hrun (m : Machine σ) (hm : d ≤ m.thread.suspensions) :=
      noteTask_of_suspended task (Nat.lt_of_lt_of_le hd hm)
    exact ⟨fun m hm => by rw [hrun m hm], fun m hm => by rw [hrun m hm], fun _ _ _ => trivial⟩

end Action

/-! ### What a call adds -/

/-- The task for the workload behind what an implementation has computed. -/
def Invocation.tasks (target : Target) (v : Invocation σ) : List Task :=
  match v.outputs? with
  | some outputs => tasksBehind target outputs
  | none => []

section

variable {w : Walk σ} {m n : Machine σ} {k : Nat} {s : TraceSession} {tasks : List Task}
  {i : Implementation σ} {r : CallSite} {target : Target}

private theorem Added.spares {P : α → Prop} {x : Action σ α} (h : Added m k tasks n)
    (hx : SparesTuning 0 P x) : Added m k tasks (x n).2 :=
  h.of_eq (hx.tuning n (Nat.zero_le _)) (hx.suspensions n (Nat.zero_le _))

/-- An implementation adds the task for the workload behind its outputs, if it has ended with a
value. -/
private theorem Added.computeTraced (h : Added m k tasks n) (hm : m.Collecting k s)
    (hi : i.Keeps (SparesTuning 0)) (r : CallSite) (target : Target) :
    Added m k (tasks ++ (Invocation.implementation i r n).tasks target)
      (computeTraced i r target n).2 := by
  have hspares := h.spares (hi r.attrs r.inputs r.type)
  unfold Invocation.tasks
  rcases hrun : i.compute r.attrs r.inputs r.type n with ⟨o, n'⟩
  rw [hrun] at hspares
  cases o with
  | ok outputs =>
    rw [Invocation.outputs?_of_ok hrun, computeTraced_of_ok hrun]
    exact hspares.noting hm target outputs
  | fault | panic | stalled =>
    have hfails : ∀ outputs, (i.compute r.attrs r.inputs r.type n).1 ≠ .ok outputs := by
      rw [hrun]
      exact nofun
    rw [Invocation.outputs?_of_fails hfails, List.append_nil, computeTraced_eq,
      bind_machine_of_fails hfails, hrun]
    exact hspares

/-- Choosing a candidate adds what the implementations add that are computed. -/
private theorem Added.choose (h : Added m k tasks n) (hm : m.Collecting k s)
    (hw : w.collaborators.Keeps (SparesTuning 0)) (call : Call) (site : CallSite) :
    Added m k (tasks ++ (w.selecting call site n).flatMap (Invocation.tasks w.target))
      (w.choose call site n).2 := by
  have hcandidates := (closed_sparesTuning 0).candidates hw site w.target
  refine Walk.selecting_log (fun done n => Added m k
    (tasks ++ done.flatMap (Invocation.tasks w.target)) n) [] ?_ ?_ ?_
  · intro st _
    have hstrategy := h.spares hcandidates
    rwa [← List.append_nil tasks] at hstrategy
  · intro is n' his done n'' i hi hdone
    have hkeeps := hcandidates.result n is (congrArg Prod.fst his) i hi
    have hcomputed := hdone.computeTraced hm hkeeps site w.target
    rwa [List.append_assoc, ← List.flatMap_singleton (f := Invocation.tasks w.target),
      ← List.flatMap_append] at hcomputed
  · rwa [← List.append_nil tasks] at h

end

namespace Walk

/-- The tasks that a session is to collect while a call is lowered: those of the implementations
that are computed for it, if the session wants the operator. -/
def tasks (w : Walk σ) (s : TraceSession) (c : Begun σ) : List Task :=
  if s.covers c.node.call.op then (w.invocations c).flatMap (Invocation.tasks w.target) else []

variable {w : Walk σ} {m : Machine σ} {k : Nat} {s : TraceSession} {c : Begun σ}

/-- **What a call adds.** -/
theorem added_after (haspect : w.aspect = .values)
    (hw : w.collaborators.Keeps (SparesTuning 0)) (hm : m.Collecting k s) {tasks : List Task}
    (h : Added m k tasks c.machine) : Added m k (tasks ++ w.tasks s c) (c.after w) := by
  have hexcludes : c.machine.excludes c.node.call.op = !s.covers c.node.call.op := by
    rw [(h.collecting hm).excludes, TraceSession.collectAll_eq]
    rfl
  unfold Walk.tasks
  cases hnormal : c.node.call.type.normalize c.machine.lots c.machine.next with
  | error e =>
    rw [after_of_error haspect hnormal, invocations_of_error haspect hnormal]
    simpa using h
  | ok r =>
    obtain ⟨type, next⟩ := r
    rw [after_of_ok haspect hnormal, invocations_of_ok haspect hnormal, hexcludes]
    cases hcovers : s.covers c.node.call.op with
    | true =>
      have hentered : c.entered next = { c.machine with next } := by
        rw [Begun.entered, hexcludes, hcovers]
        rfl
      have hnormalized : Added m k tasks { c.machine with next } := h.of_eq rfl rfl
      rw [if_pos rfl, hentered]
      exact hnormalized.choose hm hw c.node.call (c.site type)
    | false =>
      -- tracing is suspended until a candidate was chosen
      have hmuted : SparesTuning 1 (fun _ => True) (w.choose c.node.call (c.site type)) :=
        (regime_sparesTuning Nat.one_pos).choose
          (hw.imp (closed_sparesTuning 1) fun h => h.mono (Nat.zero_le 1)) _ _
      let n : Machine σ := { c.machine with next, thread := c.machine.thread.suspend }
      have hle : 1 ≤ n.thread.suspensions := Nat.succ_le_succ (Nat.zero_le _)
      rw [if_neg nofun, List.append_nil]
      exact h.of_eq (hmuted.tuning n hle) (congrArg Nat.pred (hmuted.suspensions n hle))

/-- **The tasks that a lowering leaves to a tuner.** -/
theorem lower_tasks (w : Walk σ) (haspect : w.aspect = .values)
    (hw : w.collaborators.Keeps (SparesTuning 0)) {f : Function} (hf : f.Coherent)
    (hm : m.Collecting k s) :
    ∃ log : List (Begun σ), (∀ c, c ∈ log ↔ w.Begins f m c) ∧
      log.map Begun.node <+: f.callNodes ∧
      (∀ l, (w.lower f m).1 = .ok l → log.map Begun.node = f.callNodes) ∧
      ∃ tasks, (w.lower f m).2.tuning = m.tuning.modifySession k (fun s => { s with tasks }) ∧
        tasks = s.tasks ++ ((log.flatMap (w.tasks s)).filter (· ∉ s.tasks)).eraseDups ∧
        (s.tasks.Nodup → tasks.Nodup) := by
  have hrule : w.LogRule fun log n => Added m k (log.flatMap (w.tasks s)) n := by
    refine ⟨fun log n next h => h.of_eq rfl rfl, fun log c h => ?_⟩
    rw [List.flatMap_append, List.flatMap_singleton]
    exact added_after haspect hw hm h
  obtain ⟨log, hmem, hadded, hfirst, hall⟩ := lower_log w hrule hf (Added.start m k)
  refine ⟨log, hmem, hfirst, hall, _, ?_, rfl, fun hnodup => ?_⟩
  · rw [hadded.tuning]
    exact Tuning.modifySession_congr hm.session (s.collectAll_eq _)
  · have hcollected := TraceSession.nodup_collectAll hnodup (log.flatMap (w.tasks s))
    rwa [TraceSession.collectAll_eq] at hcollected

end Walk

/-! ### An example -/

/-- A workload with this name and a tensor that is computed by it. -/
def Tensor.tunable (name : String) : Tensor :=
  .computed 0 name [] .bool name [] (some ⟨name, []⟩)

/-- Collaborators that offer two implementations for every operator, both of which can be tuned;
the second one fails for an operator. -/
def Collaborators.tunable (failing : String) : Collaborators Unit where
  strategy? _ op := some fun _ _ _ _ => return ⟨[⟨none,
    [⟨op ++ ".fast", 10, fun _ _ _ => return [.tunable (op ++ ".fast")]⟩,
      ⟨op ++ ".safe", 5, fun _ _ _ =>
        if op = failing then Action.fail (.noImplementation op)
        else return [.tunable (op ++ ".safe")]⟩]⟩]⟩
  shapeFunction? _ _ := none
  build a := return .ofArtifact 0 a

/-- They keep what holds of an action that only returns something or fails. -/
theorem Collaborators.keeps_tunable {K : Action.Property Unit}
    (hpure : ∀ {α : Type} {P : α → Prop} {a : α}, P a → K P (pure a : Action Unit α))
    (hfail : ∀ {α : Type} (P : α → Prop) (op : String), K P (Action.fail (.noImplementation op)))
    (failing : String) : (tunable failing).Keeps K := by
  refine ⟨fun own op s hs attrs inputs type target => ?_, nofun, fun a => hpure trivial⟩
  obtain rfl := Option.some.inj hs
  refine hpure fun sp hsp i hi attrs inputs type => ?_
  obtain rfl := List.mem_singleton.mp hsp
  obtain rfl | hi := List.mem_cons.mp hi
  · exact hpure trivial
  · obtain rfl := List.mem_singleton.mp hi
    dsimp only
    split
    · exact hfail _ op
    · exact hpure trivial

private theorem Collaborators.sparesTuning_tunable (failing : String) :
    (tunable failing).Keeps (SparesTuning 0) := by
  have hclosed := closed_sparesTuning (σ := Unit) 0
  exact keeps_tunable hclosed.pure (fun _ _ => hclosed.plain (plain_fail _)) failing

/-- A session that wants sums only and has a task. Lowering a sum of what `relu` yields fails at the
second implementation of the sum. The task of the first one was collected, and none for `relu`. -/
theorem Walk.lower_tasks_failed :
    let type : Ty := .tensor ⟨[.imm 2 .int64], .float 32⟩
    let f := Function.twoScopes ⟨0, "x", type⟩ ⟨1, "y", type⟩ ⟨2, "z", type⟩
    let target : Target := ⟨.llvm, .empty⟩
    let w : Walk Unit := ⟨.tunable "add", target, true, .values⟩
    let task (name : String) : Task := ⟨target, name, []⟩
    let s : TraceSession := ⟨true, some ["add"], [task "old"]⟩
    let m : Machine Unit := { Machine.initial () 0 with tuning := ⟨.fallback, [s], some 0⟩ }
    m.Collecting 0 s ∧ (w.lower f m).1.isOk = false ∧
      ∃ log : List (Begun Unit), (∀ c, c ∈ log ↔ w.Begins f m c) ∧
        log.map Begun.node <+: f.callNodes ∧
        s.tasks ++ ((log.flatMap (w.tasks s)).filter (· ∉ s.tasks)).eraseDups =
          [task "old", task "add.fast"] := by
  intro type f target w task s m
  have hm : m.Collecting 0 s := ⟨rfl, rfl, rfl⟩
  have hfailed : (w.lower f m).1.isOk = false := by decide +kernel
  have hsessions : (w.lower f m).2.tuning.sessions.map TraceSession.tasks =
      [[task "old", task "add.fast"]] := by decide +kernel
  obtain ⟨log, hmem, hfirst, -, tasks, htuning, htasks, -⟩ := w.lower_tasks rfl
    (Collaborators.sparesTuning_tunable "add") (Function.twoScopes_coherent _ _ _) hm
  have hall := (congrArg (fun t => t.sessions.map TraceSession.tasks) htuning).symm.trans hsessions
  exact ⟨hm, hfailed, log, hmem, hfirst, htasks.symm.trans (List.cons.inj hall).1⟩

end TensorLowering
