import TensorLowering.Proofs.Fingerprint.Reading
import TensorLowering.Proofs.Graph.Binding
import Mathlib.Tactic.ByContra

/-!
# The tables of an encoding

An encoding numbers the inner nodes it visits and the variables it binds. A node keeps its number
(`keeps_visited_encode`). The numbers of variables are told apart as long as no variable is bound
that has a number already. In a function whose binders are distinct this does not happen, and so a
variable keeps its number once it has one (`Encoding.Fits`, `extends_encode`).
-/

namespace TensorLowering

/-! ### Numbering -/

/-- The first entry of a table is found under its key and hides no other one. -/
theorem lookup_cons_ite {α : Type} (i j : Nat) (x : α) (table : List (Nat × α)) :
    List.lookup j ((i, x) :: table) = if j = i then some x else table.lookup j := by
  rw [List.lookup_cons]
  split
  · next h => rw [if_pos (eq_of_beq h)]
  · next h => rw [if_neg (ne_of_beq_false h)]

/-- What the first table says, the second one says too. -/
def Keeps (table table' : List (Nat × Nat)) : Prop :=
  ∀ i n, table.lookup i = some n → table'.lookup i = some n

namespace Keeps

variable {V W X : List (Nat × Nat)}

theorem refl (V : List (Nat × Nat)) : Keeps V V := fun _ _ h => h

/-- What is added in two steps is added. -/
theorem trans (h : Keeps V W) (h' : Keeps W X) : Keeps V X := fun i n hi => h' i n (h i n hi)

/-- An entry under a new key keeps the other ones. -/
theorem cons {i : Nat} (h : V.lookup i = none) (n : Nat) : Keeps V ((i, n) :: V) := by
  intro j m hj
  have hne : j ≠ i := by
    rintro rfl
    rw [h] at hj
    exact absurd hj (by simp)
  rw [lookup_cons_ite, if_neg hne]
  exact hj

private theorem lookup_eq_none (h : Keeps V W) {i : Nat} (hi : W.lookup i = none) :
    V.lookup i = none := by
  cases hV : V.lookup i with
  | none => rfl
  | some n => rw [h i n hV] at hi; exact absurd hi (by simp)

/-- What was in a table is in one that keeps it. -/
theorem lookup_ne_none (h : Keeps V W) {i : Nat} (hi : V.lookup i ≠ none) : W.lookup i ≠ none :=
  fun hW => hi (h.lookup_eq_none hW)

end Keeps

/-- The entries of a table are numbered from zero on. -/
structure Numbered (table : List (Nat × Nat)) : Prop where
  lt : ∀ i n, table.lookup i = some n → n < table.length
  inj : ∀ i j n, table.lookup i = some n → table.lookup j = some n → i = j
  onto : ∀ n, n < table.length → ∃ i, table.lookup i = some n

namespace Numbered

variable {V W : List (Nat × Nat)}

theorem nil : Numbered [] := by
  refine ⟨?_, ?_, ?_⟩ <;> intros <;> simp_all

/-- An entry that is not in the table yet takes the next number. -/
theorem cons (h : Numbered V) {i : Nat} (hi : V.lookup i = none) :
    Numbered ((i, V.length) :: V) := by
  have hlookup (j n : Nat) (hj : ((i, V.length) :: V).lookup j = some n) :
      (j = i ∧ n = V.length) ∨ (j ≠ i ∧ V.lookup j = some n) := by
    rw [lookup_cons_ite] at hj
    split at hj
    · next hji => exact Or.inl ⟨hji, (Option.some.inj hj).symm⟩
    · next hji => exact Or.inr ⟨hji, hj⟩
  refine ⟨?_, ?_, ?_⟩
  · intro j n hj
    rw [List.length_cons]
    obtain ⟨-, rfl⟩ | ⟨-, hj⟩ := hlookup j n hj
    · omega
    · have := h.lt j n hj
      omega
  · intro j k n hj hk
    obtain ⟨hji, hn⟩ | ⟨-, hj⟩ := hlookup j n hj
    · obtain ⟨hki, -⟩ | ⟨-, hk⟩ := hlookup k n hk
      · rw [hji, hki]
      · have := h.lt k n hk
        omega
    · obtain ⟨-, hn⟩ | ⟨-, hk⟩ := hlookup k n hk
      · have := h.lt j n hj
        omega
      · exact h.inj j k n hj hk
  · intro n hn
    rw [List.length_cons] at hn
    by_cases hlast : n = V.length
    · exact ⟨i, by rw [lookup_cons_ite, if_pos rfl, hlast]⟩
    · obtain ⟨j, hj⟩ := h.onto n (by omega)
      exact ⟨j, Keeps.cons hi _ j n hj⟩

/-- An entry that stands in a later table under a number of an earlier one was there before. -/
theorem lookup_of_lt (hV : Numbered V) (hW : Numbered W) (h : Keeps V W) {i n : Nat}
    (hn : n < V.length) (hi : W.lookup i = some n) : V.lookup i = some n := by
  obtain ⟨j, hj⟩ := hV.onto n hn
  obtain rfl := hW.inj i j n hi (h j n hj)
  exact hj

end Numbered

namespace Encoding

/-! ### The nodes that were visited -/

@[simp] theorem visited_emit (s : Encoding) (t : Token) : (s.emit t).visited = s.visited := rfl

@[simp] theorem bound_emit (s : Encoding) (t : Token) : (s.emit t).bound = s.bound := rfl

@[simp] theorem visited_bind (s : Encoding) (x : Nat) : (s.bind x).visited = s.visited := rfl

@[simp] theorem bound_visit (s : Encoding) (id : Nat) : (s.visit id).bound = s.bound := rfl

/-- To enter a new node keeps the numbers of the other ones. -/
theorem keeps_enter {s : Encoding} {id : Nat} (h : s.visited.lookup id = none) (t : Token) :
    Keeps s.visited (s.enter id t).visited :=
  Keeps.cons h _

/-- A node is numbered when it is visited. -/
theorem lookup_visit (s : Encoding) (id j : Nat) :
    (s.visit id).visited.lookup j =
      if j = id then some s.visited.length else s.visited.lookup j :=
  lookup_cons_ite id j _ _

/-- Its number is how many were visited before. -/
theorem lookup_visit_self (s : Encoding) (id : Nat) :
    (s.visit id).visited.lookup id = some s.visited.length := by
  rw [lookup_visit, if_pos rfl]

mutual

/-- A node keeps its number. -/
theorem keeps_visited_encode (s : Encoding) : (e : Expr) →
    Keeps s.visited (s.encode e).visited
  | .var .. | .const .. => Keeps.refl _
  | .call id op attrs args t => by
    cases hid : s.visited.lookup id with
    | some index => simp only [encode, hid]; exact Keeps.refl _
    | none =>
      rw [encode_call hid]
      exact (keeps_enter hid _).trans (keeps_visited_encodeAll _ args)
  | .tuple id fields => by
    cases hid : s.visited.lookup id with
    | some index => simp only [encode, hid]; exact Keeps.refl _
    | none =>
      rw [encode_tuple hid]
      exact (keeps_enter hid _).trans (keeps_visited_encodeAll _ fields)
  | .proj id e i => by
    cases hid : s.visited.lookup id with
    | some index => simp only [encode, hid]; exact Keeps.refl _
    | none =>
      rw [encode_proj hid]
      exact (keeps_enter hid _).trans (keeps_visited_encode _ e)
  | .letIn id v value body => by
    cases hid : s.visited.lookup id with
    | some index => simp only [encode, hid]; exact Keeps.refl _
    | none =>
      rw [encode_letIn hid]
      have hvalue := (keeps_enter hid (.letIn v.type)).trans (keeps_visited_encode _ value)
      exact hvalue.trans (keeps_visited_encode (bind _ v.id) body)

/-- The same for several expressions. -/
theorem keeps_visited_encodeAll (s : Encoding) : (es : List Expr) →
    Keeps s.visited (s.encodeAll es).visited
  | [] => Keeps.refl _
  | e :: es => (keeps_visited_encode s e).trans (keeps_visited_encodeAll _ es)

end

/-! ### The variables that are bound -/

/-- A new variable is put before the ones that are bound. -/
theorem bound_bind (s : Encoding) {x : Nat} (h : s.bound.lookup x = none) :
    (s.bind x).bound = (x, s.bound.length) :: s.bound := by
  have hfilter : s.bound.filter (·.1 ≠ x) = s.bound := by
    rw [List.filter_eq_self]
    intro p hp
    rw [List.lookup_eq_none_iff] at h
    have := h p hp
    simp only [bne_iff_ne, ne_eq] at this
    simpa using fun hpx => this hpx.symm
  change (x, s.bound.length) :: s.bound.filter (·.1 ≠ x) = _
  rw [hfilter]

/-- A new variable gets the next number, the other ones keep theirs. -/
theorem lookup_bind (s : Encoding) {x : Nat} (hx : s.bound.lookup x = none) (y : Nat) :
    (s.bind x).bound.lookup y = if y = x then some s.bound.length else s.bound.lookup y := by
  rw [bound_bind s hx]
  exact lookup_cons_ite x y _ _

/-- A variable that is bound gets the number of variables before it. -/
theorem lookup_bind_self (s : Encoding) (x : Nat) :
    (s.bind x).bound.lookup x = some s.bound.length := by
  change List.lookup x ((x, s.bound.length) :: s.bound.filter (·.1 ≠ x)) = _
  rw [lookup_cons_ite, if_pos rfl]

/-- It is in the table from then on. -/
theorem lookup_bind_ne_none (s : Encoding) (x : Nat) : (s.bind x).bound.lookup x ≠ none := by
  rw [lookup_bind_self]
  exact Option.some_ne_none _

/-- Variables that are written alike have one number, or they are free and equal. -/
theorem lookup_eq_of_occurrence {s t : Encoding} {x y : Var}
    (h : s.occurrence x = t.occurrence y) :
    s.bound.lookup x.id = t.bound.lookup y.id ∧ (s.bound.lookup x.id = none → x.id = y.id) := by
  unfold occurrence at h
  cases hs : s.bound.lookup x.id with
  | some n =>
    cases ht : t.bound.lookup y.id with
    | some m =>
      rw [hs, ht] at h
      exact ⟨congrArg some (Token.bound.inj h), fun hnone => nomatch hnone⟩
    | none =>
      rw [hs, ht] at h
      exact nomatch h
  | none =>
    cases ht : t.bound.lookup y.id with
    | some m =>
      rw [hs, ht] at h
      exact nomatch h
    | none =>
      rw [hs, ht] at h
      exact ⟨rfl, fun _ => Token.free.inj h⟩

/-- The variables with a number are parameters, or their definitions were visited; and their
numbers are told apart. -/
structure Fits (s : Encoding) (f : Function) : Prop where
  numbered : Numbered s.bound
  settled : ∀ x, s.bound.lookup x ≠ none →
    x ∈ f.paramIds ∨ ∃ i, (i, x) ∈ f.body.lets ∧ s.visited.lookup i ≠ none

/-- The function binds all variables in a table that fits it. -/
theorem Fits.binds {s : Encoding} {f : Function} (h : s.Fits f) {x : Nat}
    (hx : s.bound.lookup x ≠ none) : f.Binds x := by
  obtain hx | ⟨i, hi, -⟩ := h.settled x hx
  · exact Or.inl hx
  · exact Or.inr ⟨i, hi⟩

/-- What becomes of the table of variables while the definitions of the list are visited: numbers
are kept, and only variables whose definition was not visited before are given one. -/
structure Extends (f : Function) (lets : List (Nat × Nat)) (s s' : Encoding) : Prop where
  fits : s'.Fits f
  keeps : Keeps s.bound s'.bound
  fresh : ∀ x, s.bound.lookup x = none → s'.bound.lookup x ≠ none →
    ∃ i, (i, x) ∈ lets ∧ s.visited.lookup i = none

namespace Extends

variable {f : Function} {ls ls' : List (Nat × Nat)} {s s' s'' : Encoding}

/-- Nothing is added where no variable is bound. -/
theorem of_bound_eq (h : s.Fits f) (hb : s'.bound = s.bound) (hv : Keeps s.visited s'.visited) :
    Extends f ls s s' := by
  refine ⟨⟨?_, ?_⟩, ?_, ?_⟩
  · rw [hb]
    exact h.numbered
  · intro x hx
    rw [hb] at hx
    obtain hx | ⟨i, hi, hvi⟩ := h.settled x hx
    · exact Or.inl hx
    · exact Or.inr ⟨i, hi, hv.lookup_ne_none hvi⟩
  · rw [hb]
    exact Keeps.refl _
  · intro x hx hx'
    rw [hb] at hx'
    exact absurd hx hx'

/-- To enter a node binds no variable. -/
theorem enter (ls : List (Nat × Nat)) (h : s.Fits f) {id : Nat}
    (hid : s.visited.lookup id = none) (t : Token) :
    Extends f ls s (s.enter id t) :=
  of_bound_eq h rfl (keeps_enter hid t)

theorem trans (h : Extends f ls s s') (h' : Extends f ls s' s'')
    (hv : Keeps s.visited s'.visited) : Extends f ls s s'' := by
  refine ⟨h'.fits, h.keeps.trans h'.keeps, ?_⟩
  intro x hx hx''
  by_cases hx' : s'.bound.lookup x = none
  · obtain ⟨i, hi, hvi⟩ := h'.fresh x hx' hx''
    exact ⟨i, hi, hv.lookup_eq_none hvi⟩
  · exact h.fresh x hx hx'

/-- More definitions may be allowed to bind. -/
theorem mono (h : Extends f ls s s') (hls : ls ⊆ ls') : Extends f ls' s s' := by
  refine ⟨h.fits, h.keeps, ?_⟩
  intro x hx hx'
  obtain ⟨i, hi, hvi⟩ := h.fresh x hx hx'
  exact ⟨i, hls hi, hvi⟩

end Extends

/-- A variable is not bound when its definition begins. -/
theorem Fits.lookup_eq_none {f : Function} (hf : f.Distinct) {s : Encoding} (h : s.Fits f)
    {i x : Nat} (hi : (i, x) ∈ f.body.lets) (hs : s.visited.lookup i = none) :
    s.bound.lookup x = none := by
  by_contra hx
  obtain hparam | ⟨j, hj, hvj⟩ := h.settled x hx
  · exact hf.params_lets i x hi hparam
  · obtain rfl := hf.lets i j x hi hj
    exact hvj hs

/-- Binding the variable of a definition that was visited, and whose variable is not bound. -/
theorem Fits.bind {f : Function} {s : Encoding} (h : s.Fits f) {x : Nat}
    (hx : s.bound.lookup x = none)
    (hsrc : x ∈ f.paramIds ∨ ∃ i, (i, x) ∈ f.body.lets ∧ s.visited.lookup i ≠ none) :
    (s.bind x).Fits f := by
  refine ⟨?_, ?_⟩
  · rw [bound_bind s hx]
    exact h.numbered.cons hx
  · intro y hy
    by_cases hyx : y = x
    · subst hyx
      exact hsrc
    · rw [lookup_bind s hx, if_neg hyx] at hy
      exact h.settled y hy

/-- The definition that is being visited binds its variable, once its value was encoded. -/
private theorem Extends.letIn {f : Function} (hf : f.Distinct) {s s' : Encoding} {id : Nat}
    {v : Var} {ls : List (Nat × Nat)} (hs : s.Fits f) (hid : s.visited.lookup id = none)
    (hlet : (id, v.id) ∈ f.body.lets) (hls : ls ⊆ f.body.lets)
    (h : Extends f ls (s.enter id (.letIn v.type)) s')
    (hv : Keeps (s.enter id (.letIn v.type)).visited s'.visited) :
    s'.bound.lookup v.id = none ∧ Extends f ((id, v.id) :: ls) s (s'.bind v.id) := by
  have hopen : (s.enter id (.letIn v.type)).visited.lookup id ≠ none := by
    rw [visited_emit, lookup_visit_self]
    exact Option.some_ne_none _
  have hx : s.bound.lookup v.id = none := hs.lookup_eq_none hf hlet hid
  -- the value cannot bind the variable: its only definition is the open one
  have hx' : s'.bound.lookup v.id = none := by
    by_contra hne
    obtain ⟨i, hi, hvi⟩ := h.fresh v.id hx hne
    obtain rfl := hf.lets i id v.id (hls hi) hlet
    exact hopen hvi
  refine ⟨hx', h.fits.bind hx' (Or.inr ⟨id, hlet, hv.lookup_ne_none hopen⟩), ?_, ?_⟩
  · rw [bound_bind s' hx']
    exact h.keeps.trans (Keeps.cons hx' _)
  · intro y hy hy'
    by_cases hyv : y = v.id
    · subst hyv
      exact ⟨id, List.mem_cons_self, hid⟩
    · rw [lookup_bind s' hx', if_neg hyv] at hy'
      obtain ⟨i, hi, hvi⟩ := h.fresh y hy hy'
      exact ⟨i, List.mem_cons_of_mem _ hi, (keeps_enter hid _).lookup_eq_none hvi⟩

variable {f : Function}

mutual

/-- **A variable keeps its number.** Encoding a part of a function with distinct binders gives
numbers only to variables whose definition was not visited before. -/
theorem extends_encode (hf : f.Distinct) {s : Encoding} (hs : s.Fits f) : (e : Expr) →
    e.lets ⊆ f.body.lets → Extends f e.lets s (s.encode e)
  | .var .., _ | .const .., _ => Extends.of_bound_eq hs rfl (Keeps.refl _)
  | .call id op attrs args t, he => by
    cases hid : s.visited.lookup id with
    | some index => simp only [encode, hid]; exact Extends.of_bound_eq hs rfl (Keeps.refl _)
    | none =>
      rw [encode_call hid]
      have henter := Extends.enter (Expr.letsAll args) hs hid
        (.call op attrs args.length t)
      exact henter.trans (extends_encodeAll hf henter.fits args he) (keeps_enter hid _)
  | .tuple id fields, he => by
    cases hid : s.visited.lookup id with
    | some index => simp only [encode, hid]; exact Extends.of_bound_eq hs rfl (Keeps.refl _)
    | none =>
      rw [encode_tuple hid]
      have henter := Extends.enter (Expr.letsAll fields) hs hid (.tuple fields.length)
      exact henter.trans (extends_encodeAll hf henter.fits fields he) (keeps_enter hid _)
  | .proj id e i, he => by
    cases hid : s.visited.lookup id with
    | some index => simp only [encode, hid]; exact Extends.of_bound_eq hs rfl (Keeps.refl _)
    | none =>
      rw [encode_proj hid]
      have henter := Extends.enter e.lets hs hid (.proj i)
      exact henter.trans (extends_encode hf henter.fits e he) (keeps_enter hid _)
  | .letIn id v value body, he => by
    cases hid : s.visited.lookup id with
    | some index => simp only [encode, hid]; exact Extends.of_bound_eq hs rfl (Keeps.refl _)
    | none =>
      rw [encode_letIn hid]
      rw [Expr.lets, List.cons_subset, List.append_subset] at he
      obtain ⟨hlet, hvalue, hbody⟩ := he
      have henter := Extends.enter value.lets hs hid (.letIn v.type)
      have hval := extends_encode hf henter.fits value hvalue
      have hkeep := keeps_visited_encode (s.enter id (.letIn v.type)) value
      obtain ⟨-, hbind⟩ := Extends.letIn hf hs hid hlet hvalue hval hkeep
      have hbod := extends_encode hf hbind.fits body hbody
      refine (hbind.mono ?_).trans (hbod.mono ?_) ((keeps_enter hid _).trans hkeep)
      · rw [Expr.lets]
        exact List.cons_subset_cons _ (List.subset_append_left _ _)
      · rw [Expr.lets]
        exact List.subset_cons_of_subset _ (List.subset_append_right _ _)

/-- The same for several expressions. -/
theorem extends_encodeAll (hf : f.Distinct) {s : Encoding} (hs : s.Fits f) : (es : List Expr) →
    Expr.letsAll es ⊆ f.body.lets → Extends f (Expr.letsAll es) s (s.encodeAll es)
  | [], _ => Extends.of_bound_eq hs rfl (Keeps.refl _)
  | e :: es, he => by
    rw [Expr.letsAll, List.append_subset] at he
    have hhead := extends_encode hf hs e he.1
    have htail := extends_encodeAll hf hhead.fits es he.2
    rw [encodeAll, Expr.letsAll]
    exact (hhead.mono (List.subset_append_left _ _)).trans
      (htail.mono (List.subset_append_right _ _)) (keeps_visited_encode s e)

end

/-- The definition that is encoded next, between its value and its body. -/
theorem extends_letIn (hf : f.Distinct) {s : Encoding} (hs : s.Fits f) {id : Nat} {v : Var}
    {value body : Expr} (he : (Expr.letIn id v value body).lets ⊆ f.body.lets)
    (hid : s.visited.lookup id = none) :
    ((s.enter id (.letIn v.type)).encode value).bound.lookup v.id = none ∧
      Extends f ((id, v.id) :: value.lets) s
        (((s.enter id (.letIn v.type)).encode value).bind v.id) := by
  rw [Expr.lets, List.cons_subset, List.append_subset] at he
  obtain ⟨hlet, hvalue, -⟩ := he
  have henter := Extends.enter value.lets hs hid (.letIn v.type)
  exact Extends.letIn hf hs hid hlet hvalue (extends_encode hf henter.fits value hvalue)
    (keeps_visited_encode _ value)

end Encoding

end TensorLowering
