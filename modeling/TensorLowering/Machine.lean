import TensorLowering.Cache.Names
import TensorLowering.Cache.Table
import TensorLowering.Tuning.Trace

/-!
# Machines, outcomes and actions

A `Machine` is everything a request can read or change: the two caches, the names handed out,
tuning, the state of the thread the request runs on, the supply of numbers, and whatever the
collaborators (strategies, implementations, shape functions, the builder) keep for themselves.

Tensors, artifacts and entry points are numbered one after the other, since all that is ever asked
of their numbers is whether two are equal. The numbers of symbolic variables are also compared, and
so they are drawn at random: any sequence of lots may be the one that a machine has.

An `Action` runs on a machine and leaves a machine, whatever its outcome: a value, a fault, or a
panic, which no one but the caller of the whole request handles. An action that could only go on
by waiting for itself is `stalled`. What was changed before an action failed stays changed;
scopes (`Action.withTarget`, `Action.suspendIf`) are closed on every way out.
-/

namespace TensorLowering

/-- How an action ends. -/
inductive Outcome (α : Type) where
  /-- With a value. -/
  | ok (value : α)
  /-- With a fault that callers may look at. -/
  | fault (cause : Fault)
  /-- With a panic. -/
  | panic
  /-- Not at all: the action waits for itself. -/
  | stalled
deriving Inhabited

namespace Outcome

variable {α β : Type}

/-- Change the value, if there is one. -/
def map (f : α → β) : Outcome α → Outcome β
  | .ok a => .ok (f a)
  | .fault e => .fault e
  | .panic => .panic
  | .stalled => .stalled

/-- Change the fault, if there is one. -/
def mapFault (f : Fault → Fault) : Outcome α → Outcome α
  | .ok a => .ok a
  | .fault e => .fault (f e)
  | .panic => .panic
  | .stalled => .stalled

end Outcome

/-- What belongs to the thread a request runs on. -/
structure Thread where
  /-- The targets that were entered and not yet left, innermost first. -/
  targets : List Target
  /-- How many suspensions of tracing are in force. -/
  suspensions : Nat
deriving Inhabited

namespace Thread

/-- A thread on which nothing was entered or suspended. -/
def fresh : Thread := ⟨[], 0⟩

/-- The innermost target. -/
def target? (t : Thread) : Option Target := t.targets.head?

/-- Enter a target. -/
def enter (t : Thread) (target : Target) : Thread := { t with targets := target :: t.targets }

/-- Leave the innermost target, whichever it is. -/
def leave (t : Thread) : Thread := { t with targets := t.targets.tail }

/-- Suspend tracing once more. -/
def suspend (t : Thread) : Thread := { t with suspensions := t.suspensions + 1 }

/-- End one suspension of tracing. -/
def resume (t : Thread) : Thread := { t with suspensions := t.suspensions - 1 }

end Thread

/-- Which side of a function is lowered. -/
inductive Aspect where
  /-- The tensors that it computes. -/
  | values
  /-- Tensors that hold their shapes. -/
  | shapes
deriving DecidableEq, Repr

/-- All that a request can read or change; `σ` is what the collaborators keep. -/
structure Machine (σ : Type) where
  /-- The lowered functions. -/
  values : Cache
  /-- The lowered shape functions. -/
  shapes : Cache
  /-- The names handed out. -/
  names : NameTable
  /-- The oracle and the trace sessions. -/
  tuning : Tuning
  /-- The state of the thread. -/
  thread : Thread
  /-- The next number that nothing was called by. -/
  next : Nat
  /-- The lots that the numbers of symbolic variables are drawn from. -/
  lots : Nat → Nat
  /-- What the collaborators keep. -/
  own : σ

namespace Machine

variable {σ : Type}

/-- A machine on which nothing was requested, with numbers handed out from `next` on. -/
def initial (own : σ) (next : Nat) (lots : Nat → Nat := SymId.scattered) : Machine σ :=
  ⟨.empty, .empty, .empty, .initial, .fresh, next, lots, own⟩

/-- The cache for one side. -/
def cache (m : Machine σ) : Aspect → Cache
  | .values => m.values
  | .shapes => m.shapes

/-- Change the cache for one side. -/
def modifyCache (m : Machine σ) (aspect : Aspect) (f : Cache → Cache) : Machine σ :=
  match aspect with
  | .values => { m with values := f m.values }
  | .shapes => { m with shapes := f m.shapes }

/-- Whether a trace session collects tasks on this thread. -/
def collects (m : Machine σ) (s : TraceSession) : Bool := s.active && m.thread.suspensions == 0

end Machine

/-- What runs on a machine. -/
def Action (σ α : Type) : Type := Machine σ → Outcome α × Machine σ

namespace Action

variable {σ α β : Type}

/-- Do nothing. -/
protected def pure (a : α) : Action σ α := fun m => (.ok a, m)

/-- Do one thing and, if it gave a value, the next. -/
protected def bind (x : Action σ α) (f : α → Action σ β) : Action σ β := fun m =>
  match x m with
  | (.ok a, m) => f a m
  | (.fault e, m) => (.fault e, m)
  | (.panic, m) => (.panic, m)
  | (.stalled, m) => (.stalled, m)

instance : Monad (Action σ) where
  pure := Action.pure
  bind := Action.bind

instance : LawfulMonad (Action σ) := by
  refine LawfulMonad.mk' _ (fun x => ?_) (fun _ _ => rfl) (fun x f g => ?_)
  · funext m
    change Action.bind x (fun a => Action.pure a) m = x m
    unfold Action.bind Action.pure
    rcases x m with ⟨_ | _ | _ | _, _⟩ <;> rfl
  · funext m
    change Action.bind (Action.bind x f) g m = Action.bind x (fun a => Action.bind (f a) g) m
    unfold Action.bind
    rcases x m with ⟨_ | _ | _ | _, _⟩ <;> rfl

/-- Two things in a row end with a value just if the first one does and the second one, which goes
on from the machine that is left, does. -/
theorem bind_eq_ok_iff {x : Action σ α} {f : α → Action σ β} {m n : Machine σ} {b : β} :
    (x >>= f) m = (.ok b, n) ↔ ∃ a m', x m = (.ok a, m') ∧ f a m' = (.ok b, n) := by
  change Action.bind x f m = _ ↔ _
  unfold Action.bind
  rcases x m with ⟨_ | _ | _ | _, _⟩ <;> simp [and_assoc]

/-- Two things in a row end with a fault just if the first one does, or it ends with a value and
the second one ends with the fault. -/
theorem bind_eq_fault_iff {x : Action σ α} {f : α → Action σ β} {m n : Machine σ} {e : Fault} :
    (x >>= f) m = (.fault e, n) ↔
      x m = (.fault e, n) ∨ ∃ a m', x m = (.ok a, m') ∧ f a m' = (.fault e, n) := by
  change Action.bind x f m = _ ↔ _
  unfold Action.bind
  rcases x m with ⟨_ | _ | _ | _, _⟩ <;> simp [and_assoc]

instance : Inhabited (Action σ α) := ⟨fun m => (.stalled, m)⟩

/-- End with a fault. -/
def fail (e : Fault) : Action σ α := fun m => (.fault e, m)

/-- End with a panic. -/
def panic : Action σ α := fun m => (.panic, m)

/-- Wait for itself. -/
def stall : Action σ α := fun m => (.stalled, m)

/-- Look something up in the machine. -/
def read (f : Machine σ → α) : Action σ α := fun m => (.ok (f m), m)

/-- Change the machine. -/
def modify (f : Machine σ → Machine σ) : Action σ Unit := fun m => (.ok (), f m)

/-- Do something and reword its fault. -/
def mapFault (f : Fault → Fault) (x : Action σ α) : Action σ α := fun m =>
  ((x m).1.mapFault f, (x m).2)

/-- A value that may be missing. -/
def ofOption (e : Fault) : Option α → Action σ α
  | some a => pure a
  | none => fail e

/-- A value that is taken to be there. -/
def orPanic : Option α → Action σ α
  | some a => pure a
  | none => panic

/-- A number that no tensor, artifact or entry point has. -/
def freshNumber : Action σ Nat := fun m => (.ok m.next, { m with next := m.next + 1 })

/-- Something that takes numbers from the supply, and may fail. -/
def takeNumbers (f : (Nat → Nat) → Nat → Except Fault (α × Nat)) : Action σ α := fun m =>
  match f m.lots m.next with
  | .ok (a, next) => (.ok a, { m with next })
  | .error e => (.fault e, m)

/-- A new placeholder. -/
def placeholder (name : String) (shape : List IndexExpr) (dtype : DataType) : Action σ Tensor := do
  return .placeholder (← freshNumber) name shape dtype

/-- A new computed tensor, without a workload. -/
def computed (name : String) (shape : List IndexExpr) (dtype : DataType) (tag : String)
    (inputs : List Tensor) : Action σ Tensor := do
  return .computed (← freshNumber) name shape dtype tag inputs none

/-- Do something with a target entered. -/
def withTarget (target : Target) (x : Action σ α) : Action σ α := fun m =>
  let (r, m) := x { m with thread := m.thread.enter target }
  (r, { m with thread := m.thread.leave })

/-- Do something with tracing suspended once more, if so asked. -/
def suspendIf (suspended : Bool) (x : Action σ α) : Action σ α := fun m =>
  if suspended then
    let (r, m) := x { m with thread := m.thread.suspend }
    (r, { m with thread := m.thread.resume })
  else x m

/-- Add a task to the current trace session, if there is one that collects tasks here. -/
def noteTask (task : Task) : Action σ Unit := fun m =>
  match m.tuning.current, m.tuning.session? with
  | some n, some s =>
    if m.collects s then
      (.ok (), { m with tuning := m.tuning.modifySession n fun s => s.collect task })
    else (.ok (), m)
  | _, _ => (.ok (), m)

end Action

end TensorLowering
