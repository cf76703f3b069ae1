import TensorLowering.Machine

/-!
# Collaborators and what they offer

The library chooses and combines; what there is to choose from is supplied by *collaborators*.
The strategy of an operator makes an *offer* for one call: implementations, some of them under a
condition on dimensions and attributes. An implementation computes the tensors of the result. For
lowering shapes, an operator has a shape function instead. A builder makes entry points.

Collaborators are actions: they may look at the machine, issue requests of their own, fail and
panic. What is registered may change while a function is lowered, so it is looked up in what the
collaborators keep.
-/

namespace TensorLowering

/-- One way to compute an operator. -/
structure Implementation (σ : Type) where
  /-- The name shown for it. -/
  name : String
  /-- Its priority: the greater, the better. -/
  priority : Int
  /-- The tensors of the result, from attributes, inputs and the type of the result. -/
  compute : Attrs → List Tensor → Ty → Action σ (List Tensor)

/-- Implementations under one condition, a conjunction of clauses; or under none. -/
structure Specialization (σ : Type) where
  condition : Option (List IndexExpr)
  implementations : List (Implementation σ)

/-- The implementations for one call, grouped by condition. -/
structure Offer (σ : Type) where
  specializations : List (Specialization σ)

namespace Offer

variable {σ : Type}

/-- An offer of nothing. -/
def empty : Offer σ := ⟨[]⟩

/-- Put an implementation into the group of its condition, which is made at the end if there is
none. -/
def insert (condition : Option (List IndexExpr)) (i : Implementation σ) :
    List (Specialization σ) → List (Specialization σ)
  | [] => [⟨condition, [i]⟩]
  | s :: rest =>
    if s.condition = condition then { s with implementations := s.implementations ++ [i] } :: rest
    else s :: insert condition i rest

/-- Add an implementation to an offer. -/
def add (o : Offer σ) (condition : Option (List IndexExpr)) (i : Implementation σ) : Offer σ :=
  ⟨insert condition i o.specializations⟩

end Offer

/-- The strategy of an operator: an offer, from attributes, inputs, the type of the result and
the target. -/
abbrev Strategy (σ : Type) : Type := Attrs → List Tensor → Ty → Target → Action σ (Offer σ)

/-- The shape function of an operator: a tensor for the shape of each output, from attributes,
the shapes of the inputs as tensors, and the ranks of the outputs. -/
abbrev ShapeFunction (σ : Type) : Type := Attrs → List Tensor → List Nat → Action σ (List Tensor)

/-- All that is supplied to the library. -/
structure Collaborators (σ : Type) where
  /-- The strategy registered for an operator. -/
  strategy? : σ → String → Option (Strategy σ)
  /-- The shape function registered for an operator. -/
  shapeFunction? : σ → String → Option (ShapeFunction σ)
  /-- Make an entry point for an artifact. -/
  build : Artifact → Action σ EntryPoint

namespace Collaborators

variable {σ : Type}

/-- The strategy of an operator, or the fault that there is none. -/
def strategy (c : Collaborators σ) (op : String) : Action σ (Strategy σ) := fun m =>
  Action.ofOption (.noStrategy op) (c.strategy? m.own op) m

/-- The shape function of an operator, or the fault that there is none. -/
def shapeFunction (c : Collaborators σ) (op : String) : Action σ (ShapeFunction σ) := fun m =>
  Action.ofOption (.noShapeFunction op) (c.shapeFunction? m.own op) m

end Collaborators

end TensorLowering
