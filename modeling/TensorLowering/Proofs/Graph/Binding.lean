import TensorLowering.Graph.Expr

/-!
# Nodes, binders and occurrences

A graph is given as a tree in which equal numbers stand for one node. This is a graph only if
equal numbers come with equal contents, which is what `Function.Coherent` says: there is a
catalogue that tells for every number what its node is.

Variables are bound by the parameters of a function and by its local definitions. No function is
kept from binding one variable twice, nor from naming a variable outside the definition that binds
it. `Function.Distinct` excludes the first, `Function.Scoped` the second, and a function with both
properties is called tidy. An occurrence is addressed by the path from the root to it
(`Expr.Occurs`), since a shared node may stand in several scopes.
-/

namespace TensorLowering

/-! ### What the numbers stand for -/

/-- What every number of a node stands for. -/
structure Catalogue where
  /-- The node of a number. -/
  node : Nat → Expr

mutual

/-- All nodes of an expression are the ones of the catalogue. -/
def Expr.In (c : Catalogue) : Expr → Prop
  | .var id v => c.node id = .var id v
  | .const id t data => c.node id = .const id t data
  | .call id op attrs args t => c.node id = .call id op attrs args t ∧ Expr.InAll c args
  | .tuple id fields => c.node id = .tuple id fields ∧ Expr.InAll c fields
  | .proj id e i => c.node id = .proj id e i ∧ e.In c
  | .letIn id v value body => c.node id = .letIn id v value body ∧ value.In c ∧ body.In c

/-- The same for several expressions. -/
def Expr.InAll (c : Catalogue) : List Expr → Prop
  | [] => True
  | e :: es => e.In c ∧ Expr.InAll c es

end

namespace Expr

/-- A node that is in a catalogue is found there. -/
theorem In.node {c : Catalogue} {e : Expr} (h : e.In c) : c.node e.id = e := by
  cases e with
  | var | const => exact h
  | call | tuple | proj | letIn => exact h.1

/-- In a graph, a node is known by its number. -/
theorem In.eq_of_id_eq {c : Catalogue} {d e : Expr} (hd : d.In c) (he : e.In c)
    (h : d.id = e.id) : d = e := by
  rw [← hd.node, ← he.node, h]

/-- Expressions are in a catalogue just if each of them is. -/
theorem inAll_iff {c : Catalogue} {es : List Expr} : InAll c es ↔ ∀ e ∈ es, e.In c := by
  induction es with
  | nil => simp [InAll]
  | cons e es ih => rw [InAll, ih, List.forall_mem_cons]

end Expr

/-- One number, one node. -/
def Function.Coherent (f : Function) : Prop := ∃ c, f.body.In c

/-! ### Binders -/

mutual

/-- The local definitions of an expression: the number of the node and the variable it binds. -/
def Expr.lets : Expr → List (Nat × Nat)
  | .var .. | .const .. => []
  | .call _ _ _ args _ => Expr.letsAll args
  | .tuple _ fields => Expr.letsAll fields
  | .proj _ e _ => e.lets
  | .letIn id v value body => (id, v.id) :: (value.lets ++ body.lets)

/-- The local definitions of several expressions. -/
def Expr.letsAll : List Expr → List (Nat × Nat)
  | [] => []
  | e :: es => e.lets ++ Expr.letsAll es

end

namespace Expr

/-- Local definitions in one of some expressions are definitions in them. -/
theorem lets_subset_letsAll {e : Expr} {es : List Expr} (h : e ∈ es) : e.lets ⊆ letsAll es := by
  induction es with
  | nil => exact absurd h List.not_mem_nil
  | cons d es ih =>
    rw [letsAll]
    obtain rfl | h := List.mem_cons.mp h
    · exact List.subset_append_left _ _
    · exact List.subset_append_of_subset_right _ (ih h)

/-- They all lie where those of each expression do. -/
theorem letsAll_subset {es : List Expr} {ls : List (Nat × Nat)} (h : ∀ e ∈ es, e.lets ⊆ ls) :
    letsAll es ⊆ ls := by
  induction es with
  | nil => exact List.nil_subset _
  | cons e es ih =>
    rw [letsAll, List.append_subset]
    exact ⟨h e List.mem_cons_self, ih fun d hd => h d (List.mem_cons_of_mem _ hd)⟩

end Expr

/-- The variables bound by the parameters, in their order. -/
def Function.paramIds (f : Function) : List Nat := f.params.map (·.id)

/-- A parameter or a local definition binds the variable. -/
def Function.Binds (f : Function) (x : Nat) : Prop :=
  x ∈ f.paramIds ∨ ∃ i, (i, x) ∈ f.body.lets

/-- No variable is bound by two binders; the occurrences of a shared definition are one binder. -/
structure Function.Distinct (f : Function) : Prop where
  params : f.paramIds.Nodup
  params_lets : ∀ i x, (i, x) ∈ f.body.lets → x ∉ f.paramIds
  lets : ∀ i j x, (i, x) ∈ f.body.lets → (j, x) ∈ f.body.lets → i = j

/-! ### Occurrences -/

/-- `e.Occurs xs path ys x`: at the end of the path from the root of `e` stands an occurrence of
the variable `x`. Innermost first, `xs` are the variables bound around `e` and `ys` those bound
around the occurrence. -/
inductive Expr.Occurs : Expr → List Nat → List Nat → List Nat → Nat → Prop where
  | var (id : Nat) (v : Var) (xs : List Nat) : Occurs (.var id v) xs [] xs v.id
  | call (id : Nat) (op : String) (attrs : Attrs) (t : Ty) {args : List Expr} {i : Nat} {e : Expr}
      {xs path ys : List Nat} {x : Nat} :
      args[i]? = some e → Occurs e xs path ys x →
        Occurs (.call id op attrs args t) xs (i :: path) ys x
  | tuple (id : Nat) {fields : List Expr} {i : Nat} {e : Expr} {xs path ys : List Nat} {x : Nat} :
      fields[i]? = some e → Occurs e xs path ys x → Occurs (.tuple id fields) xs (i :: path) ys x
  | proj (id i : Nat) {e : Expr} {xs path ys : List Nat} {x : Nat} :
      Occurs e xs path ys x → Occurs (.proj id e i) xs (0 :: path) ys x
  | letValue (id : Nat) (v : Var) (body : Expr) {value : Expr} {xs path ys : List Nat} {x : Nat} :
      Occurs value xs path ys x → Occurs (.letIn id v value body) xs (0 :: path) ys x
  | letBody (id : Nat) (v : Var) (value : Expr) {body : Expr} {xs path ys : List Nat} {x : Nat} :
      Occurs body (v.id :: xs) path ys x → Occurs (.letIn id v value body) xs (1 :: path) ys x

/-- The variables bound around the body of a function, innermost first. -/
def Function.scope (f : Function) : List Nat := f.paramIds.reverse

/-- A variable that is bound somewhere in the function occurs only where it is bound. -/
def Function.Scoped (f : Function) : Prop :=
  ∀ path ys x, f.body.Occurs f.scope path ys x → f.Binds x → x ∈ ys

/-- A function in which no variable is bound twice or occurs outside its scope. -/
structure Function.Tidy (f : Function) : Prop where
  distinct : f.Distinct
  inScope : f.Scoped

end TensorLowering
