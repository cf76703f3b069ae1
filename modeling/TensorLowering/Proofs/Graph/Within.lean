import TensorLowering.Proofs.Graph.Binding
import TensorLowering.Proofs.Tensor.Alike

/-!
# The parts of a function

`Expr.Within` says that an expression is a part of another one. What is assumed of all nodes of a
function is stated with it: that numbers of variables stand for variables (`Function.AgreeOnVars`),
that no dimension of a constant is unknown (`Function.KnownConstants`), and that the symbolic
variables in its types are old ones (`Function.Below`).
-/

namespace TensorLowering

/-- `d.Within e`: the expression `d` is `e` or a part of it. -/
inductive Expr.Within : Expr → Expr → Prop where
  | refl (e : Expr) : Within e e
  | call (id : Nat) (op : String) (attrs : Attrs) (t : Ty) {args : List Expr} {a d : Expr} :
      a ∈ args → Within d a → Within d (.call id op attrs args t)
  | tuple (id : Nat) {fields : List Expr} {a d : Expr} :
      a ∈ fields → Within d a → Within d (.tuple id fields)
  | proj (id i : Nat) {e d : Expr} : Within d e → Within d (.proj id e i)
  | letValue (id : Nat) (v : Var) (body : Expr) {value d : Expr} :
      Within d value → Within d (.letIn id v value body)
  | letBody (id : Nat) (v : Var) (value : Expr) {body d : Expr} :
      Within d body → Within d (.letIn id v value body)

namespace Expr

variable {c d e : Expr}

/-- A part of a part is a part. -/
theorem Within.trans (h : c.Within d) (h' : d.Within e) : c.Within e := by
  induction h' with
  | refl => exact h
  | call id op attrs t ha _ ih => exact .call id op attrs t ha (ih h)
  | tuple id ha _ ih => exact .tuple id ha (ih h)
  | proj id i _ ih => exact .proj id i (ih h)
  | letValue id v body _ ih => exact .letValue id v body (ih h)
  | letBody id v value _ ih => exact .letBody id v value (ih h)

/-- The parts that are evaluated before anything is bound. -/
def parts : Expr → List Expr
  | .var .. | .const .. => []
  | .call _ _ _ args _ => args
  | .tuple _ fields => fields
  | .proj _ e _ => [e]
  | .letIn _ _ value _ => [value]

/-- What an expression is made from is a part of it. -/
theorem within_of_mem_parts (h : d ∈ e.parts) : d.Within e := by
  cases e with
  | var | const => cases h
  | call id op attrs args t => exact .call id op attrs t h (.refl d)
  | tuple id fields => exact .tuple id h (.refl d)
  | proj id e i =>
    obtain rfl := List.mem_singleton.mp h
    exact .proj id i (.refl d)
  | letIn id v value body =>
    obtain rfl := List.mem_singleton.mp h
    exact .letValue id v body (.refl d)

/-- It is smaller. -/
theorem sizeOf_lt_of_mem_parts (h : d ∈ e.parts) : sizeOf d < sizeOf e := by
  cases e with
  | var | const => cases h
  | call id op attrs args t =>
    have hlt := List.sizeOf_lt_of_mem h
    simp only [parts, call.sizeOf_spec] at hlt ⊢
    omega
  | tuple id fields =>
    have hlt := List.sizeOf_lt_of_mem h
    simp only [parts, tuple.sizeOf_spec] at hlt ⊢
    omega
  | proj id e i =>
    obtain rfl := List.mem_singleton.mp h
    simp only [proj.sizeOf_spec]
    omega
  | letIn id v value body =>
    obtain rfl := List.mem_singleton.mp h
    simp only [letIn.sizeOf_spec]
    omega

/-- A part of nodes of a catalogue is made of nodes of the catalogue. -/
theorem Within.inCatalogue {k : Catalogue} (h : d.Within e) (he : e.In k) : d.In k := by
  induction h with
  | refl => exact he
  | call id op attrs t ha _ ih => exact ih (inAll_iff.mp he.2 _ ha)
  | tuple id ha _ ih => exact ih (inAll_iff.mp he.2 _ ha)
  | proj id i _ ih => exact ih he.2
  | letValue id v body _ ih => exact ih he.2.1
  | letBody id v value _ ih => exact ih he.2.2

/-- What a part defines, the whole does. -/
theorem Within.lets_subset (h : d.Within e) : d.lets ⊆ e.lets := by
  induction h with
  | refl => exact List.Subset.refl _
  | call id op attrs t ha _ ih => exact List.Subset.trans ih (lets_subset_letsAll ha)
  | tuple id ha _ ih => exact List.Subset.trans ih (lets_subset_letsAll ha)
  | proj id i _ ih => exact ih
  | letValue id v body _ ih =>
    rw [lets]
    exact List.Subset.trans ih (List.subset_cons_of_subset _ (List.subset_append_left _ _))
  | letBody id v value _ ih =>
    rw [lets]
    exact List.Subset.trans ih (List.subset_cons_of_subset _ (List.subset_append_right _ _))

mutual

/-- What is defined locally is defined by a part. -/
theorem exists_within_of_mem_lets {i x : Nat} : (e : Expr) → (i, x) ∈ e.lets →
    ∃ v value body, (Expr.letIn i v value body).Within e ∧ v.id = x
  | .var .., h | .const .., h => absurd h List.not_mem_nil
  | .call id op attrs args t, h => by
    obtain ⟨a, ha, v, value, body, hwithin, hv⟩ := exists_within_of_mem_letsAll args h
    exact ⟨v, value, body, .call id op attrs t ha hwithin, hv⟩
  | .tuple id fields, h => by
    obtain ⟨a, ha, v, value, body, hwithin, hv⟩ := exists_within_of_mem_letsAll fields h
    exact ⟨v, value, body, .tuple id ha hwithin, hv⟩
  | .proj id e n, h => by
    obtain ⟨v, value, body, hwithin, hv⟩ := exists_within_of_mem_lets e h
    exact ⟨v, value, body, .proj id n hwithin, hv⟩
  | .letIn id w value body, h => by
    rw [lets, List.mem_cons, List.mem_append] at h
    obtain heq | h | h := h
    · obtain ⟨rfl, rfl⟩ := Prod.mk.inj heq
      exact ⟨w, value, body, .refl _, rfl⟩
    · obtain ⟨v, value', body', hwithin, hv⟩ := exists_within_of_mem_lets value h
      exact ⟨v, value', body', .letValue id w body hwithin, hv⟩
    · obtain ⟨v, value', body', hwithin, hv⟩ := exists_within_of_mem_lets body h
      exact ⟨v, value', body', .letBody id w value hwithin, hv⟩

/-- The same for several expressions. -/
theorem exists_within_of_mem_letsAll {i x : Nat} : (es : List Expr) → (i, x) ∈ letsAll es →
    ∃ a ∈ es, ∃ v value body, (Expr.letIn i v value body).Within a ∧ v.id = x
  | [], h => absurd h List.not_mem_nil
  | e :: es, h => by
    rw [letsAll, List.mem_append] at h
    obtain h | h := h
    · exact ⟨e, List.mem_cons_self, exists_within_of_mem_lets e h⟩
    · obtain ⟨a, ha, h⟩ := exists_within_of_mem_letsAll es h
      exact ⟨a, List.mem_cons_of_mem _ ha, h⟩

end

/-- In a graph, a local definition binds one variable. -/
theorem In.lets_inj {k : Catalogue} (he : e.In k) {i x y : Nat} (hx : (i, x) ∈ e.lets)
    (hy : (i, y) ∈ e.lets) : x = y := by
  obtain ⟨v, value, body, hv, rfl⟩ := exists_within_of_mem_lets e hx
  obtain ⟨w, value', body', hw, rfl⟩ := exists_within_of_mem_lets e hy
  have hnode : k.node i = .letIn i v value body := (hv.inCatalogue he).node
  have hnode' : k.node i = .letIn i w value' body' := (hw.inCatalogue he).node
  rw [hnode, Expr.letIn.injEq] at hnode'
  exact congrArg Var.id hnode'.2.1

end Expr

namespace Function

/-- The variable is a parameter, is defined locally, or occurs. -/
inductive Mentions (f : Function) : Var → Prop where
  | param {v : Var} : v ∈ f.params → Mentions f v
  | letIn {id : Nat} {v : Var} {value body : Expr} :
      (Expr.letIn id v value body).Within f.body → Mentions f v
  | occurrence {id : Nat} {v : Var} : (Expr.var id v).Within f.body → Mentions f v

/-- In two functions, one number stands for one variable. -/
def AgreeOnVars (f g : Function) : Prop :=
  ∃ var : Nat → Var, ∀ v, f.Mentions v ∨ g.Mentions v → var v.id = v

/-- No dimension of a constant is unknown. -/
def KnownConstants (f : Function) : Prop :=
  ∀ id t data, (Expr.const id t data).Within f.body → t.hasUnknown = false

/-- The symbolic variables in the types of a function have numbers less than `b`. -/
structure Below (b : Nat) (f : Function) : Prop where
  params : ∀ v ∈ f.params, v.type.Below b
  constants : ∀ id t data, (Expr.const id t data).Within f.body → t.Below b
  calls : ∀ id op attrs args t, (Expr.call id op attrs args t).Within f.body → t.Below b

end Function

end TensorLowering
