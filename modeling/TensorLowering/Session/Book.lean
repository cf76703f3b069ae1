import TensorLowering.Session.Command
import TensorLowering.Session.Report

/-!
# What a session keeps

Besides the machine, a session keeps what is registered, the tuning histories, and what it has
handed out: keys, handles of entry points, scopes and suspensions. It also keeps the log of the
command that is being served.
-/

namespace TensorLowering.Session

/-- What the collaborators of a session keep. -/
structure Book where
  /-- The strategies registered; a later one for an operator stands in front. -/
  strategies : List (String × StrategyRecipe)
  /-- The shape functions registered; a later one for an operator stands in front. -/
  shapeFunctions : List (String × ComputeRecipe)
  /-- How entry points are made, if not in the standard way. -/
  builder : Option BuilderRecipe
  /-- How many builds were asked for. -/
  builds : Nat
  /-- The tuning histories. -/
  histories : List History
  /-- The history that is asked for costs, if one is. -/
  oracle : Option Nat
  /-- The keys made, in order. -/
  keys : List CacheKey
  /-- The entry points handed out, in order. -/
  handles : List EntryPoint
  /-- The scopes that were opened, in order, and whether each is still open. -/
  scopes : List Bool
  /-- How many suspensions are kept. -/
  suspensions : Nat
  /-- What happened while the current command is served, last entry first. -/
  log : List LogEntry
deriving Inhabited

namespace Book

/-- Note what happens. -/
def note (b : Book) (e : LogEntry) : Book := { b with log := e :: b.log }

/-- The oracle of a history, or the one that knows nothing. -/
def oracleOf (b : Book) (history : Option Nat) : Oracle :=
  match history.bind fun n => b.histories[n]? with
  | some h => h.query
  | none => .fallback

end Book

/-- What a session does. -/
abbrev Act (α : Type) : Type := Action Book α

/-- Note what happens. -/
def note (e : LogEntry) : Act Unit := Action.modify fun m => { m with own := m.own.note e }

/-- Change what the session keeps. -/
def modifyBook (f : Book → Book) : Act Unit := Action.modify fun m => { m with own := f m.own }

end TensorLowering.Session
