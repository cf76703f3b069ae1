import TensorLowering.Session.Template
import TensorLowering.Engine

/-!
# Commands and recipes

A session is driven by commands, which ask an engine and the tuning, target and trace state
around it for something. Collaborators are given as *recipes*: data that says what a strategy
offers and what an implementation returns, when it fails, and which commands it issues itself.
-/

namespace TensorLowering.Session

/-- Where an output of an implementation comes from. -/
inductive OutputSource where
  /-- An input as it is. -/
  | input (index : Nat)
  /-- A new tensor with the dimensions and element type of an input. -/
  | like (index : Nat)
  /-- A new tensor of the type of a tensor of the result. -/
  | out (leaf : Nat)
  /-- A new tensor of a given type. -/
  | shape (dims : List Template) (dtype : DataType)
deriving Inhabited

/-- The workload a new tensor is annotated with. -/
inductive WorkloadRecipe where
  /-- A template used with the inputs, unless an extent of theirs is symbolic. -/
  | ofInputs (name : String)
  /-- A given workload. -/
  | exact (w : Workload)
deriving Inhabited

/-- An output of an implementation. -/
structure OutputRecipe where
  source : OutputSource
  /-- A workload of its own, in place of the common one; or explicitly none. -/
  workload : Option (Option WorkloadRecipe)
  /-- How many further tensors are computed from it in a row. -/
  wraps : Nat
deriving Inhabited

/-- The outputs of an implementation. -/
inductive OutputsRecipe where
  /-- A new tensor for each tensor of the result. -/
  | types
  /-- The inputs as they are. -/
  | inputs
  /-- Outputs one by one. -/
  | each (outputs : List OutputRecipe)
deriving Inhabited

/-- What is to be lowered: a function, or a key made earlier in the session. -/
inductive SourceRef where
  | function (f : Function)
  | key (number : Nat)
deriving Inhabited

mutual

/-- A request to a session. -/
inductive Command where
  /-- Make a key. -/
  | key (source : SourceRef) (target : Option Target)
  /-- Lower a function, or its shape function. -/
  | lower (aspect : Aspect) (source : SourceRef) (target : Option Target)
  /-- Lower a function and make it callable. -/
  | jit (source : SourceRef) (target : Option Target)
  /-- Call an entry point. -/
  | call (handle : Nat) (args : List Tensor)
  /-- Lower a function from several threads. -/
  | parallel (threads : Nat) (source : SourceRef) (target : Option Target)
  /-- Forget all entries. -/
  | clear
  /-- List the entries of a cache. -/
  | items (aspect : Aspect)
  /-- Show the lowered functions. -/
  | listing
  /-- Show the engine. -/
  | summary
  /-- Show the engine that every program has, and whether it is the same one each time. -/
  | shared
  /-- Register a strategy. -/
  | registerStrategy (op : String) (strategy : StrategyRecipe)
  /-- Register a shape function. -/
  | registerShapeFunction (op : String) (function : ComputeRecipe)
  /-- Look up what is registered for an operator. -/
  | registered (op : String)
  /-- Group implementations by condition, for a target. -/
  | group (implementations : List ImplementationRecipe) (target : Target)
  /-- Find the implementations that apply to a call. -/
  | candidates (op : String) (attrs : Attrs) (inputs : List Tensor) (type : TypeTemplate)
      (target : Target)
  /-- Choose among given implementations. -/
  | select (implementations : List ImplementationRecipe) (op : String) (attrs : Attrs)
      (inputs : List Tensor) (type : TypeTemplate) (target : Target) (useCosts : Bool)
  /-- Lower one call. -/
  | lowerCall (call : Call) (inputs : List Tensor) (target : Target) (useCosts : Bool)
  /-- Ask another history for costs from now on, or none. -/
  | dispatch (history : Option Nat)
  /-- Ask a history, or the current oracle, for a cost. -/
  | query (history : Option Nat) (target : Target) (w : Workload)
  /-- Start a trace session. -/
  | startSession (wanted : Option (List String))
  /-- Leave the current trace session. -/
  | leaveSession
  /-- Which trace session is current. -/
  | currentSession
  /-- Switch a trace session on or off. -/
  | setTracing (session : Nat) (active : Bool)
  /-- Suspend tracing and keep the suspension. -/
  | suspend (session : Nat)
  /-- End the newest suspension that is kept. -/
  | resume
  /-- Whether a trace session collects tasks here. -/
  | collects (session : Nat)
  /-- Whether a trace session collects the workloads of an operator. -/
  | covers (session : Nat) (op : String)
  /-- The tasks of a trace session. -/
  | tasks (session : Nat)
  /-- Enter a target and keep the scope. -/
  | enter (target : Target)
  /-- Close a scope that is kept. -/
  | leave (scope : Nat)
  /-- The innermost target. -/
  | currentTarget

/-- A strategy as data: the commands it issues, then a failure or an offer. -/
inductive StrategyRecipe where
  | mk (effects : List Command) (fails : Option String)
      (implementations : List ImplementationRecipe)

/-- An implementation as data. It is offered only on targets with a given key and with a given
value of an option (or without the option), if it says so. -/
inductive ImplementationRecipe where
  | mk (name : String) (priority : Int) (condition : Option (List Template))
      (key : Option String) (option : Option (String × Option String)) (compute : ComputeRecipe)

/-- A computation as data: the commands it issues, then a failure, a panic or outputs. -/
inductive ComputeRecipe where
  | mk (effects : List Command) (fails : Option String) (panics : Bool) (outputs : OutputsRecipe)
      (tensorName tag : String) (workload : Option WorkloadRecipe)

end

instance : Inhabited Command := ⟨.clear⟩
instance : Inhabited ComputeRecipe := ⟨.mk [] none false .inputs "" "" none⟩
instance : Inhabited ImplementationRecipe := ⟨.mk "" 0 none none none default⟩
instance : Inhabited StrategyRecipe := ⟨.mk [] none []⟩

/-- A builder as data: the commands it issues, and how many builds fail at first. -/
structure BuilderRecipe where
  effects : List Command
  fails : Nat
deriving Inhabited

end TensorLowering.Session
