import TensorLowering.Lowering.Call
import TensorLowering.Proofs.Graph.Within
import Mathlib.Data.List.Nodup

/-!
# The order of evaluation

An expression is evaluated from left to right and from the leaves up: the arguments of a call before
the call, the value of a local definition before the body. As a tree it holds a call wherever the
node of the call occurs (`Expr.calls`). In a graph a node is evaluated where it is met for the first
time, so the calls of a function are those of the tree, each in its first place
(`Function.callNodes`). These are the call nodes of the body, without repetition
(`Function.mem_callNodes_iff`, `Function.nodup_callNodes`).
-/

namespace TensorLowering

/-! ### First elements of a key -/

section

variable {α : Type} (key : α → Nat)

/-- Put an element at the end, unless there is one with its key. -/
def noteBy (seen : List α) (a : α) : List α :=
  if key a ∈ seen.map key then seen else seen ++ [a]

/-- Put several elements at the end, one after the other. -/
def noteAllBy (seen as : List α) : List α := as.foldl (noteBy key) seen

/-- Noting some things and then others is noting them one after the other. -/
theorem noteAllBy_append (seen as bs : List α) :
    noteAllBy key seen (as ++ bs) = noteAllBy key (noteAllBy key seen as) bs :=
  List.foldl_append

/-- What was noted stays in front. -/
theorem prefix_noteBy (seen : List α) (a : α) : seen <+: noteBy key seen a := by
  unfold noteBy
  split
  · exact List.prefix_refl seen
  · exact List.prefix_append seen [a]

/-- The same for several things. -/
theorem prefix_noteAllBy (as seen : List α) : seen <+: noteAllBy key seen as := by
  induction as generalizing seen with
  | nil => exact List.prefix_refl seen
  | cons a as ih => exact (prefix_noteBy key seen a).trans (ih _)

variable {key} {as seen : List α}

/-- Nothing is noted for elements all of whose keys were there before. -/
theorem noteAllBy_of_mem (h : ∀ a ∈ as, key a ∈ seen.map key) : noteAllBy key seen as = seen := by
  induction as with
  | nil => rfl
  | cons a as ih =>
    rw [List.forall_mem_cons] at h
    rw [noteAllBy, List.foldl_cons, noteBy, if_pos h.1]
    exact ih h.2

/-- No key is noted twice. -/
theorem nodup_noteAllBy (h : (seen.map key).Nodup) (as : List α) :
    ((noteAllBy key seen as).map key).Nodup := by
  induction as generalizing seen with
  | nil => exact h
  | cons a as ih =>
    refine ih ?_
    unfold noteBy
    split
    · exact h
    · next ha =>
      rw [List.map_append, List.nodup_append]
      refine ⟨h, List.nodup_singleton _, fun i hi j hj => ?_⟩
      obtain rfl := List.mem_singleton.mp hj
      exact ne_of_mem_of_not_mem hi ha

/-- Only what was there is noted. -/
theorem mem_noteAllBy {b : α} (h : b ∈ noteAllBy key seen as) : b ∈ seen ∨ b ∈ as := by
  induction as generalizing seen with
  | nil => exact Or.inl h
  | cons a as ih =>
    obtain hb | hb := ih h
    · unfold noteBy at hb
      split at hb
      · exact Or.inl hb
      · obtain hb | hb := List.mem_append.mp hb
        · exact Or.inl hb
        · exact Or.inr (List.mem_cons.mpr (Or.inl (List.mem_singleton.mp hb)))
    · exact Or.inr (List.mem_cons_of_mem a hb)

/-- The key of everything that was there is noted. -/
theorem key_mem_noteAllBy {a : α} (h : a ∈ as) (seen : List α) :
    key a ∈ (noteAllBy key seen as).map key := by
  induction as generalizing seen with
  | nil => exact absurd h List.not_mem_nil
  | cons b as ih =>
    obtain rfl | h := List.mem_cons.mp h
    · refine List.map_subset key (prefix_noteAllBy key as _).subset ?_
      unfold noteBy
      split
      · assumption
      · simp
    · exact ih h _

/-- From nothing on, no key is noted twice. -/
theorem nodup_noteAllBy_nil (key : α → Nat) (as : List α) :
    ((noteAllBy key [] as).map key).Nodup := by
  have hnil : (([] : List α).map key).Nodup := List.nodup_nil
  exact nodup_noteAllBy hnil as

/-- Where no two elements share a key, they are all noted. -/
theorem mem_noteAllBy_nil_iff (h : ∀ a ∈ as, ∀ b ∈ as, key a = key b → a = b) {a : α} :
    a ∈ noteAllBy key [] as ↔ a ∈ as := by
  have hmem {b : α} (hb : b ∈ noteAllBy key [] as) : b ∈ as :=
    (mem_noteAllBy hb).resolve_left List.not_mem_nil
  refine ⟨hmem, fun ha => ?_⟩
  -- an element with this key is noted, and there is only one
  obtain ⟨b, hb, hkey⟩ := List.mem_map.mp (key_mem_noteAllBy ha [])
  rwa [h a ha b (hmem hb) hkey.symm]

/-- The elements that are noted. -/
def newBy (key : α → Nat) (seen as : List α) : List α := (noteAllBy key seen as).drop seen.length

/-- What is noted anew stands behind what was noted before. -/
theorem append_newBy (key : α → Nat) (seen as : List α) :
    seen ++ newBy key seen as = noteAllBy key seen as :=
  List.prefix_iff_eq_append.mp (prefix_noteAllBy key as seen)

/-- What is new among two lists is new among the first, or new among the second after it. -/
theorem newBy_append (key : α → Nat) (seen as bs : List α) :
    newBy key seen (as ++ bs) = newBy key seen as ++ newBy key (noteAllBy key seen as) bs := by
  refine (List.append_right_inj seen).mp ?_
  rw [append_newBy, ← List.append_assoc, append_newBy, append_newBy, noteAllBy_append]

/-- Nothing is new if all keys were noted. -/
theorem newBy_of_mem (h : ∀ a ∈ as, key a ∈ seen.map key) : newBy key seen as = [] := by
  rw [newBy, noteAllBy_of_mem h, List.drop_length]

/-- A thing with a new key is new. -/
theorem newBy_singleton {a : α} (h : key a ∉ seen.map key) : newBy key seen [a] = [a] := by
  refine (List.append_right_inj seen).mp ?_
  rw [append_newBy]
  exact if_neg h

/-- What is noted has no key that was there before. -/
theorem key_notMem_of_mem_newBy {a : α} (h : a ∈ newBy key seen as) : key a ∉ seen.map key := by
  induction as generalizing seen with
  | nil => simp [newBy, noteAllBy] at h
  | cons b as ih =>
    rw [← List.singleton_append, newBy_append, List.mem_append] at h
    obtain h | h := h
    · intro hmem
      obtain hb | hb := em (key b ∈ seen.map key)
      · have hnone : ∀ c ∈ [b], key c ∈ seen.map key := fun c hc => List.mem_singleton.mp hc ▸ hb
        rw [newBy_of_mem hnone] at h
        exact absurd h List.not_mem_nil
      · rw [newBy_singleton hb, List.mem_singleton] at h
        exact hb (h ▸ hmem)
    · intro hmem
      exact ih h (List.map_subset key (prefix_noteAllBy key [b] seen).subset hmem)

end

/-! ### The calls of an expression -/

/-- A node that is a call. -/
structure CallNode where
  id : Nat
  call : Call

/-- The node as an expression. -/
def CallNode.expr (c : CallNode) : Expr :=
  .call c.id c.call.op c.call.attrs c.call.args c.call.type

mutual

/-- The calls of an expression as a tree, in the order of evaluation. -/
def Expr.calls : Expr → List CallNode
  | .var .. | .const .. => []
  | .call id op attrs args type => Expr.callsAll args ++ [⟨id, op, attrs, args, type⟩]
  | .tuple _ fields => Expr.callsAll fields
  | .proj _ e _ => e.calls
  | .letIn _ _ value body => value.calls ++ body.calls

/-- The calls of several expressions, evaluated one after the other. -/
def Expr.callsAll : List Expr → List CallNode
  | [] => []
  | e :: es => e.calls ++ Expr.callsAll es

end

/-- The calls of a function, in the order in which they are met for the first time. -/
def Function.callNodes (f : Function) : List CallNode :=
  noteAllBy CallNode.id [] f.body.calls

namespace Expr

variable {c : CallNode} {d e : Expr} {es : List Expr}

private theorem calls_subset_callsAll (h : e ∈ es) : e.calls ⊆ callsAll es := by
  induction es with
  | nil => exact absurd h List.not_mem_nil
  | cons d es ih =>
    rw [callsAll]
    obtain rfl | h := List.mem_cons.mp h
    · exact List.subset_append_left _ _
    · exact List.subset_append_of_subset_right _ (ih h)

private theorem Within.calls_subset (h : d.Within e) : d.calls ⊆ e.calls := by
  induction h with
  | refl => exact List.Subset.refl _
  | call id op attrs t ha _ ih =>
    rw [calls]
    exact List.subset_append_of_subset_left _ (List.Subset.trans ih (calls_subset_callsAll ha))
  | tuple id ha _ ih => exact List.Subset.trans ih (calls_subset_callsAll ha)
  | proj id i _ ih => exact ih
  | letValue id v body _ ih =>
    rw [calls]
    exact List.subset_append_of_subset_left _ ih
  | letBody id v value _ ih =>
    rw [calls]
    exact List.subset_append_of_subset_right _ ih

mutual

/-- Calls of an expression are parts of it. -/
theorem within_of_mem_calls : (e : Expr) → c ∈ e.calls → c.expr.Within e
  | .var .., h | .const .., h => absurd h List.not_mem_nil
  | .call id op attrs args t, h => by
    rw [calls, List.mem_append, List.mem_singleton] at h
    obtain h | rfl := h
    · obtain ⟨a, ha, hwithin⟩ := within_of_mem_callsAll args h
      exact .call id op attrs t ha hwithin
    · exact .refl _
  | .tuple id fields, h => by
    obtain ⟨a, ha, hwithin⟩ := within_of_mem_callsAll fields h
    exact .tuple id ha hwithin
  | .proj id e i, h => .proj id i (within_of_mem_calls e h)
  | .letIn id v value body, h => by
    rw [calls, List.mem_append] at h
    obtain h | h := h
    · exact .letValue id v body (within_of_mem_calls value h)
    · exact .letBody id v value (within_of_mem_calls body h)

/-- The same for several expressions. -/
theorem within_of_mem_callsAll : (es : List Expr) → c ∈ callsAll es →
    ∃ a ∈ es, c.expr.Within a
  | [], h => absurd h List.not_mem_nil
  | e :: es, h => by
    rw [callsAll, List.mem_append] at h
    obtain h | h := h
    · exact ⟨e, List.mem_cons_self, within_of_mem_calls e h⟩
    · obtain ⟨a, ha, hwithin⟩ := within_of_mem_callsAll es h
      exact ⟨a, List.mem_cons_of_mem _ ha, hwithin⟩

end

/-- The calls of an expression are the call nodes among its parts. -/
private theorem mem_calls_iff : c ∈ e.calls ↔ c.expr.Within e := by
  constructor
  · exact within_of_mem_calls e
  · intro h
    apply h.calls_subset
    simp [CallNode.expr, calls]

/-- A part is no larger than the whole. -/
theorem Within.sizeOf_le (h : d.Within e) : sizeOf d ≤ sizeOf e := by
  induction h with
  | refl => exact Nat.le_refl _
  | call id op attrs t ha _ ih =>
    have hlt := List.sizeOf_lt_of_mem ha
    rw [call.sizeOf_spec]
    omega
  | tuple id ha _ ih =>
    have hlt := List.sizeOf_lt_of_mem ha
    rw [tuple.sizeOf_spec]
    omega
  | proj | letValue | letBody =>
    simp only [proj.sizeOf_spec, letIn.sizeOf_spec]
    omega

end Expr

/-! ### Calls of one graph -/

/-- In a graph, a call is known by its number. -/
private theorem CallNode.eq_of_id_eq {k : Catalogue} {c d : CallNode} (hc : c.expr.In k)
    (hd : d.expr.In k) (h : c.id = d.id) : c = d := by
  have hc : k.node c.id = c.expr := hc.node
  have hd : k.node d.id = d.expr := hd.node
  rw [h, hd] at hc
  obtain ⟨i, op, attrs, args, type⟩ := c
  obtain ⟨j, op', attrs', args', type'⟩ := d
  simp only [expr, Expr.call.injEq] at hc
  simp_all

/-- A call is none of those in its arguments. -/
theorem CallNode.id_notMem_callsAll {k : Catalogue} {c : CallNode} (hc : c.expr.In k) :
    c.id ∉ (Expr.callsAll c.call.args).map CallNode.id := by
  intro hmem
  obtain ⟨d, hd, hid⟩ := List.mem_map.mp hmem
  obtain ⟨a, ha, hwithin⟩ := Expr.within_of_mem_callsAll _ hd
  have harg : d.expr.Within c.expr := .call c.id c.call.op c.call.attrs c.call.type ha hwithin
  obtain rfl := eq_of_id_eq (harg.inCatalogue hc) hc hid
  have hle := hwithin.sizeOf_le
  have hlt := List.sizeOf_lt_of_mem ha
  rw [expr, Expr.call.sizeOf_spec] at hle
  omega

namespace Function

variable {f : Function}

/-- No call is listed twice. -/
theorem nodup_callNodes (f : Function) : (f.callNodes.map CallNode.id).Nodup :=
  nodup_noteAllBy_nil CallNode.id f.body.calls

/-- **The calls of a function are the call nodes of its body.** -/
theorem mem_callNodes_iff (hf : f.Coherent) {c : CallNode} :
    c ∈ f.callNodes ↔ c.expr.Within f.body := by
  obtain ⟨k, hk⟩ := hf
  have hin {d : CallNode} (hd : d ∈ f.body.calls) : d.expr.In k :=
    (Expr.mem_calls_iff.mp hd).inCatalogue hk
  refine (mem_noteAllBy_nil_iff fun a ha b hb hid => ?_).trans Expr.mem_calls_iff
  exact CallNode.eq_of_id_eq (hin ha) (hin hb) hid

end Function

end TensorLowering
