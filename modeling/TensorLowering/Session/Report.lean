import TensorLowering.Engine

/-!
# Replies and reports

Every command is answered by a report: what collaborators did while it was served, in order, and
how it ended. Commands that collaborators issue are reported inside the log.
-/

namespace TensorLowering.Session

/-- One line of a list of cache entries. -/
structure Item where
  key : CacheKey
  entry : Entry
deriving Inhabited

/-- The name and priority of an implementation. -/
structure Named where
  name : String
  priority : Int
deriving Inhabited, Repr

/-- The text of an implementation. -/
def Named.text (n : Named) : String :=
  "OpImplementation \x7b name: " ++ Text.quoted n.name ++ ", plevel: " ++ toString n.priority
    ++ " \x7d"

/-- The value a command ends with. -/
inductive Reply where
  | done
  /-- A key: its number, that of the first key that is the same, and the key. -/
  | key (number same : Nat) (key : CacheKey)
  | artifact (a : Artifact)
  | artifacts (as : List Artifact)
  /-- A handle: its number, that of the first one for the same entry point, and the latter. -/
  | handle (number same : Nat) (p : EntryPoint)
  | noHandle
  | tensors (ts : List Tensor)
  | items (items : List Item)
  | text (s : String)
  /-- The text of the engine that every program has, and whether it is the same each time. -/
  | shared (s : String) (same : Bool)
  /-- What is registered: whether there is a strategy, and what looking up the strategy and the
  shape function fails with. -/
  | registered (hasStrategy : Bool) (strategy shapeFunction : Option Fault)
  | groups (groups : List (Option (List IndexExpr) × List Named))
  | named (implementations : List Named)
  | choice (call : LoweredCall)
  | number (n : Option Nat)
  | profile (p : Profile)
  | flag (b : Bool)
  | tasks (tasks : List Task)
  | target (t : Option Target)
deriving Inhabited

/-- Something that happened while a command was served. -/
inductive LogEntry where
  /-- A strategy ran for a target, while a target was current. -/
  | strategy (op : String) (target : Target) (current : Option Target)
  /-- An implementation was computed. -/
  | compute (name : String)
  /-- A shape function ran for outputs of given ranks. -/
  | shapeFunction (op : String) (ranks : List Nat)
  /-- The builder ran for an artifact. -/
  | build (name : String)
  /-- A collaborator issued a command. -/
  | effect (log : List LogEntry) (outcome : Outcome Reply)
deriving Inhabited

/-- What was done for a command and how it ended. -/
structure Report where
  log : List LogEntry
  outcome : Outcome Reply
deriving Inhabited

end TensorLowering.Session
