import TensorLowering.Tuning.History

/-!
# Trace sessions

A trace session collects the workloads that are met while implementations are chosen, as tasks
for a tuner. It may be restricted to certain operators, and it can be switched off and on. Each
task is kept once, in the order of first occurrence.

`Tuning` is what one engine knows of tuning: the oracle it asks for costs, the trace sessions
that were ever started, and which of them is the current one.
-/

namespace TensorLowering

/-- A workload to be tuned for a target. -/
structure Task where
  target : Target
  workload : Workload
deriving DecidableEq

/-- A session that collects tasks. -/
structure TraceSession where
  /-- Whether the session is switched on. -/
  active : Bool
  /-- The operators the session is restricted to, if it is. -/
  wanted : Option (List String)
  /-- The tasks collected so far. -/
  tasks : List Task
deriving Inhabited

namespace TraceSession

/-- A new session is switched on and has no tasks. -/
def start (wanted : Option (List String)) : TraceSession := ⟨true, wanted, []⟩

/-- Whether a session collects the workloads of an operator. -/
def covers (s : TraceSession) (op : String) : Bool :=
  match s.wanted with
  | some ops => ops.contains op
  | none => true

/-- Collect a task, unless it is there already. -/
def collect (s : TraceSession) (task : Task) : TraceSession :=
  if task ∈ s.tasks then s else { s with tasks := s.tasks ++ [task] }

end TraceSession

/-- What one engine knows of tuning. -/
structure Tuning where
  /-- Where costs are looked up. -/
  oracle : Oracle
  /-- Every trace session that was started, in order. -/
  sessions : List TraceSession
  /-- The number of the current session. -/
  current : Option Nat

namespace Tuning

/-- No session, and an oracle that knows nothing. -/
def initial : Tuning := ⟨.fallback, [], none⟩

instance : Inhabited Tuning := ⟨initial⟩

/-- Start a session and make it the current one. -/
def startSession (t : Tuning) (wanted : Option (List String)) : Nat × Tuning :=
  (t.sessions.length,
    { t with sessions := t.sessions ++ [.start wanted], current := some t.sessions.length })

/-- Leave the current session. -/
def leaveSession (t : Tuning) : Option Nat × Tuning := (t.current, { t with current := none })

/-- Change the session of a number. -/
def modifySession (t : Tuning) (n : Nat) (f : TraceSession → TraceSession) : Tuning :=
  { t with sessions := t.sessions.modify n f }

/-- The current session. -/
def session? (t : Tuning) : Option TraceSession := t.current.bind fun n => t.sessions[n]?

end Tuning

end TensorLowering
