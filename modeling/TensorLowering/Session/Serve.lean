import TensorLowering.Session.Recipe

/-!
# Serving commands

`serve` answers commands. Collaborators may issue commands while a command is served, and these
in turn; `serve n` allows for `n` such levels. `Session.run` answers a list of commands, one
report each. A command that fails or panics leaves the session usable.
-/

namespace TensorLowering.Session

/-- What a reference stands for. A key that was never made is a panic. -/
def SourceRef.source : SourceRef → Act Source
  | .function f => return .function f
  | .key n => fun m =>
    match m.own.keys[n]? with
    | some k => (.ok (.key k), m)
    | none => (.panic, m)

/-- Make a key and keep it. -/
def makeKey (source : SourceRef) (target : Option Target) : Act Reply := do
  match (← source.source).key? target with
  | .error e => Action.fail e
  | .ok key =>
    let keys ← Action.read fun m => m.own.keys
    modifyBook fun b => { b with keys := b.keys ++ [key] }
    return .key keys.length (keys.findIdx fun k => k.same key) key

/-- Make an entry point and keep it. -/
def makeHandle (g : Engine Book) (source : Source) (target : Option Target) : Act Reply := do
  let p ← g.jit source target
  let handles ← Action.read fun m => m.own.handles
  modifyBook fun b => { b with handles := b.handles ++ [p] }
  return .handle handles.length (handles.findIdx fun q => q.id == p.id) p

/-- Call an entry point that is kept. -/
def callHandle (handle : Nat) (args : List Tensor) : Act Reply := do
  match ← Action.read fun m => m.own.handles[handle]? with
  | some p => return .tensors (← p.call args)
  | none => return .noHandle

/-- Do something on a thread of its own. -/
def onThread {σ α : Type} (x : Action σ α) : Action σ α := fun m =>
  let (r, m') := x { m with thread := .fresh }
  (r, { m' with thread := m.thread })

/-- Do something so many times, each on a thread of its own. All of them run; the first one that
gave no value decides how the whole ends. -/
def onThreads {σ α : Type} (x : Action σ α) : Nat → Action σ (List α)
  | 0 => return []
  | n + 1 => fun m =>
    let (first, m) := onThread x m
    let (rest, m) := onThreads x n m
    match first with
    | .ok a => (rest.map (a :: ·), m)
    | .fault e => (.fault e, m)
    | .panic => (.panic, m)
    | .stalled => (.stalled, m)

/-- The name and priority of an implementation. -/
def named (i : Implementation Book) : Named := ⟨i.name, i.priority⟩

/-- The result of a lookup, as the fault it failed with. -/
def faultOf {α : Type} (x : Act α) : Act (Option Fault) := fun m =>
  match x m with
  | (.fault e, m) => (.ok (some e), m)
  | (_, m) => (.ok none, m)

/-- Change the trace session of a number; one that was never started is a panic. -/
def withSession {α : Type} (n : Nat) (f : TraceSession → Act α) : Act α := fun m =>
  match m.tuning.sessions[n]? with
  | some s => f s m
  | none => (.panic, m)

/-- Ask a history for costs from now on, and tell which one was asked before. -/
def installOracle (history : Option Nat) : Act Reply := fun m =>
  let before := m.own.oracle
  let m := { m with
    tuning := { m.tuning with oracle := m.own.oracleOf history }
    own := { m.own with oracle := history } }
  (.ok (.number before), m)

/-- Close a scope, unless it is closed already, and tell the innermost target. -/
def closeScope (scope : Nat) : Act Reply := fun m =>
  let m := match m.own.scopes[scope]? with
    | some true =>
      { m with
        thread := m.thread.leave
        own := { m.own with scopes := m.own.scopes.set scope false } }
    | _ => m
  (.ok (.target m.thread.target?), m)

/-- Open a scope and tell the innermost target. -/
def openScope (target : Target) : Act Reply := fun m =>
  let m := { m with
    thread := m.thread.enter target
    own := { m.own with scopes := m.own.scopes ++ [true] } }
  (.ok (.target m.thread.target?), m)

/-- End the newest suspension that is kept, and tell whether there was one. -/
def resumeTracing : Act Reply := fun m =>
  if m.own.suspensions = 0 then (.ok (.flag false), m)
  else
    (.ok (.flag true), { m with
      thread := m.thread.resume
      own := { m.own with suspensions := m.own.suspensions - 1 } })

/-- Serve a command with given collaborators; `ask` serves what implementations issue. -/
def serveWith (config : Config) (ask : Command → Act Reply) : Command → Act Reply :=
  let c := collaborators ask
  let g : Engine Book := ⟨config, c⟩
  fun
  | .key source target => makeKey source target
  | .lower aspect source target => do
    return .artifact (← g.lower aspect (← source.source) target)
  | .jit source target => do makeHandle g (← source.source) target
  | .call handle args => callHandle handle args
  | .parallel threads source target => do
    let source ← source.source
    return .artifacts (← onThreads (g.lower .values source target) threads)
  | .clear => do
    Action.modify Machine.clear
    return .done
  | .items aspect => do
    return .items (← Action.read fun m => (m.cache aspect).items.map fun e => ⟨e.1, e.2⟩)
  | .listing => do return .text (← Action.read Machine.listing)
  | .summary => do return .text (← Action.read fun m => m.summary config)
  | .shared => return .shared ((Machine.initial () 0).summary .standard) true
  | .registerStrategy op strategy => do
    modifyBook fun b => { b with strategies := (op, strategy) :: b.strategies }
    return .done
  | .registerShapeFunction op function => do
    modifyBook fun b => { b with shapeFunctions := (op, function) :: b.shapeFunctions }
    return .done
  | .registered op => do
    let strategy ← faultOf (c.strategy op)
    let shapeFunction ← faultOf (c.shapeFunction op)
    return .registered strategy.isNone strategy shapeFunction
  | .group implementations target => do
    let offer ← offerFrom ask "group" .empty target .empty implementations
    return .groups (offer.specializations.map fun s => (s.condition, s.implementations.map named))
  | .candidates op attrs inputs type target => do
    let type ← filled op fun lots next => type.fill .empty next lots
    return .named ((← candidates c ⟨op, attrs, inputs, type⟩ target).map named)
  | .select implementations op attrs inputs type target useCosts => do
    let type ← filled op fun lots next => type.fill .empty next lots
    let is := implementations.map (ImplementationRecipe.implementation ask)
    let (chosen, outputs) ← select is ⟨op, attrs, inputs, type⟩ target useCosts
    return .choice ⟨chosen.name, chosen.priority, outputs⟩
  | .lowerCall call inputs target useCosts => do
    return .choice (← lowerCall c target useCosts call inputs)
  | .dispatch history => installOracle history
  | .query none target w => do
    return .profile (← Action.read fun m => m.tuning.oracle target w)
  | .query (some n) target w => do
    return .profile (← Action.read fun m => m.own.oracleOf (some n) target w)
  | .startSession wanted => fun m =>
    let (n, tuning) := m.tuning.startSession wanted
    (.ok (.number n), { m with tuning })
  | .leaveSession => fun m =>
    let (n, tuning) := m.tuning.leaveSession
    (.ok (.number n), { m with tuning })
  | .currentSession => do return .number (← Action.read fun m => m.tuning.current)
  | .setTracing n active => withSession n fun _ => do
    Action.modify fun m =>
      { m with tuning := m.tuning.modifySession n fun s => { s with active } }
    return .done
  | .suspend n => withSession n fun _ => do
    Action.modify fun m => { m with
      thread := m.thread.suspend
      own := { m.own with suspensions := m.own.suspensions + 1 } }
    return .done
  | .resume => resumeTracing
  | .collects n => withSession n fun s => do
    return .flag (← Action.read fun m => m.collects s)
  | .covers n op => withSession n fun s => return .flag (s.covers op)
  | .tasks n => withSession n fun s => return .tasks s.tasks
  | .enter target => openScope target
  | .leave scope => closeScope scope
  | .currentTarget => do return .target (← Action.read fun m => m.thread.target?)

/-- Serve a command, allowing collaborators to issue commands down to a given depth. -/
def serve (config : Config) : Nat → Command → Act Reply
  | 0 => fun _ => Action.stall
  | depth + 1 => serveWith config (serve config depth)

/-- How deep commands may be issued inside commands. -/
def maxDepth : Nat := 2000

/-- Serve a command and report on it. -/
def respond (config : Config) (c : Command) (m : Machine Book) : Report × Machine Book :=
  let (r, m) := serve config maxDepth c { m with own := { m.own with log := [] } }
  (⟨m.own.log.reverse, r⟩, m)

/-- Serve commands in order. -/
def run (config : Config) : List Command → Machine Book → List Report
  | [], _ => []
  | c :: cs, m =>
    let (report, m) := respond config c m
    report :: run config cs m

end TensorLowering.Session
