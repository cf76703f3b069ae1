import TensorLowering.Proofs.Graph.Binding
import Mathlib.Logic.Relation
import Mathlib.Logic.Relator

/-!
# Functions that are equal up to the names of variables

Two functions have the same graph (`Function.SameGraph`) if they agree in everything but in which
variable stands where: operators, attributes, constants, types and the sharing of inner nodes. They
are equal up to the names of variables (`Function.AlphaEquiv`) if moreover at the ends of equal
paths stand occurrences that refer to the same binder, counted from within, or to the same free
variable (`SameRef`).

An occurrence has the type of its binder, so nothing is said about the types of occurrences.

This is an equivalence (`Function.AlphaEquiv.refl`, `.symm`, `.trans`), since functions that have
the same graph have the same paths to occurrences (`Expr.Occurs.alike`).
-/

namespace TensorLowering

mutual

/-- Two expressions agree in everything but in which variable stands where; `nodes` tells which
inner nodes correspond. -/
def Expr.Alike (nodes : Nat → Nat → Prop) : Expr → Expr → Prop
  | .var _ _, .var _ _ => True
  | .const _ t data, .const _ t' data' => t = t' ∧ data = data'
  | .call i op attrs args t, .call j op' attrs' args' t' =>
    nodes i j ∧ op = op' ∧ attrs = attrs' ∧ t = t' ∧ Expr.AlikeAll nodes args args'
  | .tuple i fields, .tuple j fields' => nodes i j ∧ Expr.AlikeAll nodes fields fields'
  | .proj i e n, .proj j e' n' => nodes i j ∧ n = n' ∧ Expr.Alike nodes e e'
  | .letIn i v value body, .letIn j w value' body' =>
    nodes i j ∧ v.type = w.type ∧ Expr.Alike nodes value value' ∧ Expr.Alike nodes body body'
  | _, _ => False

/-- The same for lists of expressions of one length. -/
def Expr.AlikeAll (nodes : Nat → Nat → Prop) : List Expr → List Expr → Prop
  | [], [] => True
  | e :: es, e' :: es' => Expr.Alike nodes e e' ∧ Expr.AlikeAll nodes es es'
  | _, _ => False

end

/-- Two functions agree in everything but in which variable stands where. -/
structure Function.SameGraph (f g : Function) : Prop where
  params : f.params.map (·.type) = g.params.map (·.type)
  returns : f.returnType = g.returnType
  body : ∃ nodes, Relator.BiUnique nodes ∧ f.body.Alike nodes g.body

/-- Occurrences of `x` below the binders `xs` and of `y` below the binders `ys` refer to binders at
one distance, or are free and equal. -/
def SameRef (xs ys : List Nat) (x y : Nat) : Prop :=
  xs.idxOf? x = ys.idxOf? y ∧ (x ∉ xs → x = y)

/-- At the ends of equal paths stand occurrences that refer to the same binder. -/
def Function.RefersAlike (f g : Function) : Prop :=
  ∀ path xs x ys y, f.body.Occurs f.scope path xs x → g.body.Occurs g.scope path ys y →
    SameRef xs ys x y

/-- **Equal up to the names of variables.** The functions have the same graph, and each occurrence
of a variable refers to the corresponding binder, the innermost one around it that binds its
variable. -/
structure Function.AlphaEquiv (f g : Function) : Prop where
  graph : f.SameGraph g
  refers : f.RefersAlike g

/-! ### An equivalence -/

section

variable {R S : Nat → Nat → Prop} {e e' e'' : Expr} {id : Nat}

namespace Expr

/-- Only an occurrence of a variable is like one. -/
theorem alike_var {v : Var} (h : (Expr.var id v).Alike R e') : ∃ j w, e' = .var j w := by
  cases e' with
  | var j w => exact ⟨j, w, rfl⟩
  | const | call | tuple | proj | letIn => exact h.elim

/-- Only the same constant is like a constant. -/
theorem alike_const {t : TensorType} {data : List UInt8} (h : (Expr.const id t data).Alike R e') :
    ∃ j, e' = .const j t data := by
  cases e' with
  | const j t' data' =>
    obtain ⟨rfl, rfl⟩ := h
    exact ⟨j, rfl⟩
  | var | call | tuple | proj | letIn => exact h.elim

/-- Only a call of the same operator is like a call. -/
theorem alike_call {op : String} {attrs : Attrs} {args : List Expr} {t : Ty}
    (h : (Expr.call id op attrs args t).Alike R e') :
    ∃ j args', e' = .call j op attrs args' t ∧ R id j ∧ AlikeAll R args args' := by
  cases e' with
  | call j op' attrs' args' t' =>
    obtain ⟨hnode, rfl, rfl, rfl, hargs⟩ := h
    exact ⟨j, args', rfl, hnode, hargs⟩
  | var | const | tuple | proj | letIn => exact h.elim

/-- Only a tuple is like a tuple. -/
theorem alike_tuple {fields : List Expr} (h : (Expr.tuple id fields).Alike R e') :
    ∃ j fields', e' = .tuple j fields' ∧ R id j ∧ AlikeAll R fields fields' := by
  cases e' with
  | tuple j fields' => exact ⟨j, fields', rfl, h⟩
  | var | const | call | proj | letIn => exact h.elim

/-- Only a projection to the same field is like a projection. -/
theorem alike_proj {i : Nat} (h : (Expr.proj id e i).Alike R e') :
    ∃ j d, e' = .proj j d i ∧ R id j ∧ e.Alike R d := by
  cases e' with
  | proj j d i' =>
    obtain ⟨hnode, rfl, hd⟩ := h
    exact ⟨j, d, rfl, hnode, hd⟩
  | var | const | call | tuple | letIn => exact h.elim

/-- Only a local definition of the same type is like one. -/
theorem alike_letIn {v : Var} {value body : Expr} (h : (Expr.letIn id v value body).Alike R e') :
    ∃ j w value' body', e' = .letIn j w value' body' ∧ R id j ∧ v.type = w.type ∧
      value.Alike R value' ∧ body.Alike R body' := by
  cases e' with
  | letIn j w value' body' => exact ⟨j, w, value', body', rfl, h⟩
  | var | const | call | tuple | proj => exact h.elim

mutual

theorem Alike.refl (hR : ∀ i, R i i) : (e : Expr) → e.Alike R e
  | .var .. => trivial
  | .const .. => ⟨rfl, rfl⟩
  | .call id _ _ args _ => ⟨hR id, rfl, rfl, rfl, AlikeAll.refl hR args⟩
  | .tuple id fields => ⟨hR id, AlikeAll.refl hR fields⟩
  | .proj id e _ => ⟨hR id, rfl, Alike.refl hR e⟩
  | .letIn id _ value body => ⟨hR id, rfl, Alike.refl hR value, Alike.refl hR body⟩

theorem AlikeAll.refl (hR : ∀ i, R i i) : (es : List Expr) → AlikeAll R es es
  | [] => trivial
  | e :: es => ⟨Alike.refl hR e, AlikeAll.refl hR es⟩

end

mutual

theorem Alike.symm : (e : Expr) → ∀ {e' : Expr}, e.Alike R e' → e'.Alike (flip R) e
  | .var .., _, h => by
    obtain ⟨j, w, rfl⟩ := alike_var h
    exact trivial
  | .const .., _, h => by
    obtain ⟨j, rfl⟩ := alike_const h
    exact ⟨rfl, rfl⟩
  | .call _ _ _ args _, _, h => by
    obtain ⟨j, args', rfl, hnode, hargs⟩ := alike_call h
    exact ⟨hnode, rfl, rfl, rfl, AlikeAll.symm args hargs⟩
  | .tuple _ fields, _, h => by
    obtain ⟨j, fields', rfl, hnode, hfields⟩ := alike_tuple h
    exact ⟨hnode, AlikeAll.symm fields hfields⟩
  | .proj _ e _, _, h => by
    obtain ⟨j, d, rfl, hnode, hd⟩ := alike_proj h
    exact ⟨hnode, rfl, Alike.symm e hd⟩
  | .letIn _ _ value body, _, h => by
    obtain ⟨j, w, value', body', rfl, hnode, hty, hvalue, hbody⟩ := alike_letIn h
    exact ⟨hnode, hty.symm, Alike.symm value hvalue, Alike.symm body hbody⟩

theorem AlikeAll.symm : (es : List Expr) → ∀ {es' : List Expr}, AlikeAll R es es' →
    AlikeAll (flip R) es' es
  | [], [], _ => trivial
  | [], _ :: _, h => h.elim
  | _ :: _, [], h => h.elim
  | e :: es, _ :: _, h => ⟨Alike.symm e h.1, AlikeAll.symm es h.2⟩

end

mutual

theorem Alike.trans : (e : Expr) → ∀ {e' e'' : Expr}, e.Alike R e' → e'.Alike S e'' →
    e.Alike (Relation.Comp R S) e''
  | .var .., _, _, h, h' => by
    obtain ⟨j, w, rfl⟩ := alike_var h
    obtain ⟨k, u, rfl⟩ := alike_var h'
    exact trivial
  | .const .., _, _, h, h' => by
    obtain ⟨j, rfl⟩ := alike_const h
    obtain ⟨k, rfl⟩ := alike_const h'
    exact ⟨rfl, rfl⟩
  | .call _ _ _ args _, _, _, h, h' => by
    obtain ⟨j, args', rfl, hnode, hargs⟩ := alike_call h
    obtain ⟨k, args'', rfl, hnode', hargs'⟩ := alike_call h'
    exact ⟨⟨j, hnode, hnode'⟩, rfl, rfl, rfl, AlikeAll.trans args hargs hargs'⟩
  | .tuple _ fields, _, _, h, h' => by
    obtain ⟨j, fields', rfl, hnode, hfields⟩ := alike_tuple h
    obtain ⟨k, fields'', rfl, hnode', hfields'⟩ := alike_tuple h'
    exact ⟨⟨j, hnode, hnode'⟩, AlikeAll.trans fields hfields hfields'⟩
  | .proj _ e _, _, _, h, h' => by
    obtain ⟨j, d, rfl, hnode, hd⟩ := alike_proj h
    obtain ⟨k, d', rfl, hnode', hd'⟩ := alike_proj h'
    exact ⟨⟨j, hnode, hnode'⟩, rfl, Alike.trans e hd hd'⟩
  | .letIn _ _ value body, _, _, h, h' => by
    obtain ⟨j, w, value', body', rfl, hnode, hty, hvalue, hbody⟩ := alike_letIn h
    obtain ⟨k, u, value'', body'', rfl, hnode', hty', hvalue', hbody'⟩ := alike_letIn h'
    exact ⟨⟨j, hnode, hnode'⟩, hty.trans hty', Alike.trans value hvalue hvalue',
      Alike.trans body hbody hbody'⟩

theorem AlikeAll.trans : (es : List Expr) → ∀ {es' es'' : List Expr}, AlikeAll R es es' →
    AlikeAll S es' es'' → AlikeAll (Relation.Comp R S) es es''
  | [], [], [], _, _ => trivial
  | [], [], _ :: _, _, h' => h'.elim
  | [], _ :: _, _, h, _ => h.elim
  | _ :: _, [], _, h, _ => h.elim
  | _ :: _, _ :: _, [], _, h' => h'.elim
  | e :: es, _ :: _, _ :: _, h, h' => ⟨Alike.trans e h.1 h'.1, AlikeAll.trans es h.2 h'.2⟩

end

private theorem AlikeAll.getElem? {es es' : List Expr} (h : AlikeAll R es es') {i : Nat}
    (hi : es[i]? = some e) : ∃ e', es'[i]? = some e' ∧ e.Alike R e' := by
  induction es generalizing es' i with
  | nil => exact nomatch hi
  | cons d es ih =>
    cases es' with
    | nil => exact h.elim
    | cons d' es' =>
      cases i with
      | zero =>
        obtain rfl := Option.some.inj hi
        exact ⟨d', rfl, h.1⟩
      | succ i => exact ih h.2 hi

/-- The paths to occurrences are the same in expressions that are alike. -/
theorem Occurs.alike {xs path zs : List Nat} {x : Nat} (h : e.Occurs xs path zs x)
    (he : e.Alike R e') (xs' : List Nat) : ∃ zs' y, e'.Occurs xs' path zs' y := by
  induction h generalizing e' xs' with
  | var id v xs =>
    obtain ⟨j, w, rfl⟩ := alike_var he
    exact ⟨xs', w.id, .var j w xs'⟩
  | call id op attrs t hi _ ih =>
    obtain ⟨j, args', rfl, -, hargs⟩ := alike_call he
    obtain ⟨d, hd, hed⟩ := hargs.getElem? hi
    obtain ⟨zs', y, hocc⟩ := ih hed xs'
    exact ⟨zs', y, .call j op attrs t hd hocc⟩
  | tuple id hi _ ih =>
    obtain ⟨j, fields', rfl, -, hfields⟩ := alike_tuple he
    obtain ⟨d, hd, hed⟩ := hfields.getElem? hi
    obtain ⟨zs', y, hocc⟩ := ih hed xs'
    exact ⟨zs', y, .tuple j hd hocc⟩
  | proj id i _ ih =>
    obtain ⟨j, d, rfl, -, hd⟩ := alike_proj he
    obtain ⟨zs', y, hocc⟩ := ih hd xs'
    exact ⟨zs', y, .proj j i hocc⟩
  | letValue id v body _ ih =>
    obtain ⟨j, w, value', body', rfl, -, -, hvalue, -⟩ := alike_letIn he
    obtain ⟨zs', y, hocc⟩ := ih hvalue xs'
    exact ⟨zs', y, .letValue j w body' hocc⟩
  | letBody id v value _ ih =>
    obtain ⟨j, w, value', body', rfl, -, -, -, hbody⟩ := alike_letIn he
    obtain ⟨zs', y, hocc⟩ := ih hbody (w.id :: xs')
    exact ⟨zs', y, .letBody j w value' hocc⟩

/-- A path leads to one occurrence. -/
private theorem Occurs.unique {xs path zs zs' : List Nat} {x y : Nat} (h : e.Occurs xs path zs x)
    (h' : e.Occurs xs path zs' y) : zs = zs' ∧ x = y := by
  induction h with
  | var => cases h'; exact ⟨rfl, rfl⟩
  | call id op attrs t hi _ ih =>
    cases h' with
    | call _ _ _ _ hj hocc =>
      obtain rfl := Option.some.inj (hi.symm.trans hj)
      exact ih hocc
  | tuple id hi _ ih =>
    cases h' with
    | tuple _ hj hocc =>
      obtain rfl := Option.some.inj (hi.symm.trans hj)
      exact ih hocc
  | proj id i _ ih => cases h' with | proj _ _ hocc => exact ih hocc
  | letValue id v body _ ih => cases h' with | letValue _ _ _ hocc => exact ih hocc
  | letBody id v value _ ih => cases h' with | letBody _ _ _ hocc => exact ih hocc

end Expr

/-- References are to the same binder both ways. -/
theorem SameRef.symm {xs ys : List Nat} {x y : Nat} (h : SameRef xs ys x y) :
    SameRef ys xs y x := by
  refine ⟨h.1.symm, fun hy => ?_⟩
  rw [← List.idxOf?_eq_none_iff, ← h.1, List.idxOf?_eq_none_iff] at hy
  exact (h.2 hy).symm

/-- References to the same binder may be chained. -/
theorem SameRef.trans {xs ys zs : List Nat} {x y z : Nat} (h : SameRef xs ys x y)
    (h' : SameRef ys zs y z) : SameRef xs zs x z := by
  refine ⟨h.1.trans h'.1, fun hx => (h.2 hx).trans (h'.2 ?_)⟩
  rwa [← List.idxOf?_eq_none_iff, ← h.1, List.idxOf?_eq_none_iff]

end

namespace Function

variable {f g k : Function}

/-- Equality relates one to one. -/
theorem biUnique_eq : Relator.BiUnique (fun i j : Nat => i = j) := by
  constructor
  · exact fun _ _ _ hi hj => hi.trans hj.symm
  · exact fun _ _ _ hi hj => hi.symm.trans hj

/-- A function is a renaming of itself. -/
theorem AlphaEquiv.refl (f : Function) : f.AlphaEquiv f := by
  refine ⟨⟨rfl, rfl, Eq, biUnique_eq, Expr.Alike.refl (fun _ => rfl) f.body⟩, ?_⟩
  intro path xs x ys y hx hy
  obtain ⟨rfl, rfl⟩ := hx.unique hy
  exact ⟨rfl, fun _ => rfl⟩

/-- If one function is a renaming of another one, so is this of the first. -/
theorem AlphaEquiv.symm (h : f.AlphaEquiv g) : g.AlphaEquiv f := by
  obtain ⟨hparams, hreturns, nodes, hnodes, hbody⟩ := h.graph
  refine ⟨⟨hparams.symm, hreturns.symm, flip nodes, ⟨?_, ?_⟩, Expr.Alike.symm f.body hbody⟩, ?_⟩
  · exact fun i j n hi hj => hnodes.2 hi hj
  · exact fun i j n hi hj => hnodes.1 hi hj
  · exact fun path xs x ys y hx hy => (h.refers path ys y xs x hy hx).symm

/-- A renaming of a renaming is one. -/
theorem AlphaEquiv.trans (h : f.AlphaEquiv g) (h' : g.AlphaEquiv k) : f.AlphaEquiv k := by
  obtain ⟨hparams, hreturns, nodes, hnodes, hbody⟩ := h.graph
  obtain ⟨hparams', hreturns', nodes', hnodes', hbody'⟩ := h'.graph
  refine ⟨⟨hparams.trans hparams', hreturns.trans hreturns', Relation.Comp nodes nodes', ⟨?_, ?_⟩,
    Expr.Alike.trans f.body hbody hbody'⟩, ?_⟩
  · rintro i i' n ⟨j, hij, hjn⟩ ⟨j', hij', hjn'⟩
    obtain rfl := hnodes'.1 hjn hjn'
    exact hnodes.1 hij hij'
  · rintro i n n' ⟨j, hij, hjn⟩ ⟨j', hij', hjn'⟩
    obtain rfl := hnodes.2 hij hij'
    exact hnodes'.2 hjn hjn'
  · intro path xs x zs z hx hz
    obtain ⟨ys, y, hy⟩ := hx.alike hbody g.scope
    exact (h.refers path xs x ys y hx hy).trans (h'.refers path ys y zs z hy hz)

end Function

end TensorLowering
