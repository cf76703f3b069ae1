import TensorLowering.Proofs.Fingerprint.Soundness
import TensorLowering.Proofs.Graph.Within
import TensorLowering.Proofs.Lowering.Choosing
import TensorLowering.Proofs.Lowering.Leaves

/-!
# Walks and encodings abreast

A walk that lowers a function meets its nodes in the order in which they are encoded. It keeps
the tensors of a node when it leaves the node, while the encoding gives the node its number when
it enters it, and it keeps those of variables and constants as well. `Tracks` says how what a walk
has found fits the tables of the encoding, with the nodes that were entered and not left on a
path.

Two walks are *abreast* (`Abreast`) if each one tracks its encoding, and what is kept under one
number on both sides looks alike. The lemmas below say how the walks stay abreast when a node is
entered or left, when a variable is bound, and when a leaf is met.
-/

namespace TensorLowering

open Encoding

/-! ### What is assumed of the functions -/

/-- A function that is a graph with distinct binders, and what its numbers stand for. -/
structure Subject where
  function : Function
  nodes : Catalogue
  coherent : function.body.In nodes
  distinct : function.Distinct

/-- Two functions in which numbers of variables stand for the same variables. The constants of the
left one are known, and the symbolic variables in its types are old. -/
structure Twins where
  left : Subject
  right : Subject
  var : Nat → Var
  agree : ∀ v, left.function.Mentions v ∨ right.function.Mentions v → var v.id = v
  /-- The number from which on symbolic variables are new. -/
  old : Nat
  below : left.function.Below old
  known : left.function.KnownConstants

/-- A part of a function that is met below the nodes of a path, all of which are larger. -/
structure Subject.Place (d : Subject) (path : List Nat) (e : Expr) : Prop where
  within : e.Within d.function.body
  smaller : ∀ i ∈ path, sizeOf e < sizeOf (d.nodes.node i)

namespace Subject.Place

variable {d : Subject} {path : List Nat} {e : Expr} {id : Nat}

private theorem inNodes (h : d.Place path e) : e.In d.nodes := h.within.inCatalogue d.coherent

/-- What stands in a place is found in the catalogue. -/
theorem node (h : d.Place path e) : d.nodes.node e.id = e := h.inNodes.node

/-- Its local definitions are definitions of the function. -/
theorem lets (h : d.Place path e) : e.lets ⊆ d.function.body.lets := h.within.lets_subset

/-- No node stands below itself. -/
theorem notMem (h : d.Place path e) : e.id ∉ path := by
  intro hmem
  have hlt := h.smaller e.id hmem
  rw [h.node] at hlt
  omega

/-- A smaller part of the node that was entered last. -/
theorem part {a : Expr} (h : d.Place path e) (ha : a.Within e) (hlt : sizeOf a < sizeOf e) :
    d.Place (e.id :: path) a := by
  refine ⟨ha.trans h.within, ?_⟩
  rw [List.forall_mem_cons, h.node]
  exact ⟨hlt, fun i hi => Nat.lt_trans hlt (h.smaller i hi)⟩

/-- The arguments of a call stand below it. -/
theorem call {op : String} {attrs : Attrs} {args : List Expr} {ty : Ty}
    (h : d.Place path (.call id op attrs args ty)) : ∀ a ∈ args, d.Place (id :: path) a := by
  intro a ha
  refine h.part (.call id op attrs ty ha (.refl a)) ?_
  have hlt := List.sizeOf_lt_of_mem ha
  rw [Expr.call.sizeOf_spec]
  omega

/-- The fields of a tuple stand below it. -/
theorem tuple {fields : List Expr} (h : d.Place path (.tuple id fields)) :
    ∀ a ∈ fields, d.Place (id :: path) a := by
  intro a ha
  refine h.part (.tuple id ha (.refl a)) ?_
  have hlt := List.sizeOf_lt_of_mem ha
  rw [Expr.tuple.sizeOf_spec]
  omega

/-- The tuple of a projection stands below it. -/
theorem proj {a : Expr} {i : Nat} (h : d.Place path (.proj id a i)) : d.Place (id :: path) a := by
  refine h.part (.proj id i (.refl a)) ?_
  rw [Expr.proj.sizeOf_spec]
  omega

/-- The value of a local definition stands below it. -/
theorem value {v : Var} {value body : Expr} (h : d.Place path (.letIn id v value body)) :
    d.Place (id :: path) value := by
  refine h.part (.letValue id v body (.refl value)) ?_
  rw [Expr.letIn.sizeOf_spec]
  omega

/-- So does its body. -/
theorem body {v : Var} {value body : Expr} (h : d.Place path (.letIn id v value body)) :
    d.Place (id :: path) body := by
  refine h.part (.letBody id v value (.refl body)) ?_
  rw [Expr.letIn.sizeOf_spec]
  omega

end Subject.Place

/-! ### Looking up what was added -/

/-- One node is remembered, the other ones are found as before. -/
theorem Progress.lookup_remember (p : Progress) (id : Nat) (ts : List Tensor) (j : Nat) :
    (p.remember id ts).memo.lookup j = if j = id then some ts else p.memo.lookup j :=
  lookup_cons_ite id j ts _

/-- One variable is bound, the other ones are found as before. -/
theorem Progress.lookup_bind (p : Progress) (v : Var) (ts : List Tensor) (y : Nat) :
    (p.bind v ts).bound.lookup y = if y = v.id then some ts else p.bound.lookup y :=
  lookup_cons_ite v.id y ts _

/-- A node that was lowered before is not lowered again. -/
theorem Walk.visit_of_lookup {σ : Type} (v : Walk σ) {p : Progress} {e : Expr}
    {ts : List Tensor} (h : p.memo.lookup e.id = some ts) : v.visit p e = pure (ts, p) := by
  rw [visit.eq_def, h]

/-! ### One walk and its encoding -/

/-- The tensors of a node are kept from now on, or they are not. -/
def Progress.MayKeep (p : Progress) (id : Nat) (ts : List Tensor) (p' : Progress) : Prop :=
  p' = p ∨ p' = p.remember id ts

/-- Why tensors may be kept for a node: they are those of its variable, or one that was made for
the constant, or the node is an inner one that was visited. -/
inductive Kept (a : Aspect) (r : Register) (visited : List (Nat × Nat))
    (bound : List (Nat × List Tensor)) : Expr → List Tensor → Prop where
  | var (id : Nat) {v : Var} {ts : List Tensor} : bound.lookup v.id = some ts →
      Kept a r visited bound (.var id v) ts
  | const (id : Nat) {t : TensorType} (data : List UInt8) {u : Tensor} : r.IsConstant a t u →
      Kept a r visited bound (.const id t data) [u]
  | inner {e : Expr} (ts : List Tensor) : e.Inner → visited.lookup e.id ≠ none →
      Kept a r visited bound e ts

/-- What a walk has found fits the tables of the encoding that has come as far. The nodes of the
path were entered, but not left. -/
structure Tracks (d : Subject) (a : Aspect) (r : Register) (path : List Nat) (s : Encoding)
    (p : Progress) : Prop where
  fits : s.Fits d.function
  numbered : Numbered s.visited
  inner : ∀ i, s.visited.lookup i ≠ none → (d.nodes.node i).Inner
  entered : ∀ i, s.visited.lookup i ≠ none → i ∈ path ∨ p.memo.lookup i ≠ none
  bound : ∀ x, s.bound.lookup x = none ↔ p.bound.lookup x = none
  kept : ∀ i ts, p.memo.lookup i = some ts →
    Kept a r s.visited p.bound (d.nodes.node i) ts

section

variable {d : Subject} {a : Aspect} {r r' : Register} {path : List Nat} {s s' : Encoding}
  {p : Progress} {e : Expr} {visited visited' : List (Nat × Nat)}
  {bound bound' : List (Nat × List Tensor)} {ts : List Tensor}

/-- What is kept stays kept when more is made, visited and bound. -/
theorem Kept.mono (hr : r.Grows r') (hv : Keeps visited visited')
    (hb : ∀ x us, bound.lookup x = some us → bound'.lookup x = some us)
    (h : Kept a r visited bound e ts) : Kept a r' visited' bound' e ts := by
  cases h with
  | var id h => exact .var id (hb _ _ h)
  | const id data h => exact .const id data (h.mono hr)
  | inner ts he h => exact .inner ts he (hv.lookup_ne_none h)

namespace Tracks

theorem mono (hr : r.Grows r') (h : Tracks d a r path s p) : Tracks d a r' path s p :=
  ⟨h.fits, h.numbered, h.inner, h.entered, h.bound, fun i ts hi =>
    (h.kept i ts hi).mono hr (Keeps.refl _) fun _ _ hx => hx⟩

/-- Writing a token changes nothing about what was lowered. -/
private theorem emit (h : Tracks d a r path s p) (k : Token) : Tracks d a r path (s.emit k) p :=
  ⟨⟨h.fits.numbered, h.fits.settled⟩, h.numbered, h.inner, h.entered, h.bound, h.kept⟩

private theorem withLog (h : Tracks d a r path s p) (calls : List LoweredCall) (ops : List String) :
    Tracks d a r path s { p with calls, ops } :=
  ⟨h.fits, h.numbered, h.inner, h.entered, h.bound, h.kept⟩

/-- A node that was not visited was not lowered. -/
theorem lookup_eq_none (h : Tracks d a r path s p) (hp : d.Place path e) (he : e.Inner)
    (hs : s.visited.lookup e.id = none) : p.memo.lookup e.id = none := by
  cases hmemo : p.memo.lookup e.id with
  | none => rfl
  | some ts =>
    have hkept := h.kept e.id ts hmemo
    rw [hp.node] at hkept
    cases hkept with
    | var | const => exact he.elim
    | inner ts _ hne => exact absurd hs hne

/-- A node that was visited was lowered, since it is no node of the path. -/
theorem exists_lookup (h : Tracks d a r path s p) (hp : d.Place path e)
    (hs : s.visited.lookup e.id ≠ none) : ∃ ts, p.memo.lookup e.id = some ts := by
  obtain hmem | hne := h.entered e.id hs
  · exact absurd hmem hp.notMem
  · exact Option.ne_none_iff_exists'.mp hne

private theorem enter (h : Tracks d a r path s p) (hp : d.Place path e) (he : e.Inner)
    (hs : s.visited.lookup e.id = none) (k : Token) :
    Tracks d a r (e.id :: path) (s.enter e.id k) p := by
  have hlookup (i : Nat) (hi : (s.enter e.id k).visited.lookup i ≠ none) :
      i = e.id ∨ s.visited.lookup i ≠ none := by
    change (s.visit e.id).visited.lookup i ≠ none at hi
    rw [lookup_visit] at hi
    by_cases hid : i = e.id
    · exact Or.inl hid
    · rw [if_neg hid] at hi
      exact Or.inr hi
  refine ⟨(Extends.enter [] h.fits hs k).fits, h.numbered.cons hs, ?_, ?_, h.bound, ?_⟩
  · intro i hi
    obtain rfl | hi := hlookup i hi
    · rw [hp.node]
      exact he
    · exact h.inner i hi
  · intro i hi
    obtain rfl | hi := hlookup i hi
    · exact Or.inl List.mem_cons_self
    · obtain hmem | hne := h.entered i hi
      · exact Or.inl (List.mem_cons_of_mem _ hmem)
      · exact Or.inr hne
  · intro i ts hi
    exact (h.kept i ts hi).mono (.refl r) (keeps_enter hs k) fun _ _ hx => hx

/-- Tensors are kept for a node, which is no longer among the nodes that were not left. -/
private theorem remember {path' : List Nat} (h : Tracks d a r path s p)
    (hnode : d.nodes.node e.id = e) (he : Kept a r s.visited p.bound e ts)
    (hpath : ∀ i ∈ path, i = e.id ∨ i ∈ path') : Tracks d a r path' s (p.remember e.id ts) := by
  refine ⟨h.fits, h.numbered, h.inner, ?_, h.bound, ?_⟩
  · intro i hi
    rw [Progress.lookup_remember]
    by_cases hid : i = e.id
    · rw [if_pos hid]
      exact Or.inr (Option.some_ne_none _)
    · rw [if_neg hid]
      obtain hmem | hne := h.entered i hi
      · exact Or.inl ((hpath i hmem).resolve_left hid)
      · exact Or.inr hne
  · intro i us hi
    rw [Progress.lookup_remember] at hi
    by_cases hid : i = e.id
    · rw [if_pos hid] at hi
      obtain rfl := Option.some.inj hi
      rw [hid, hnode]
      exact he
    · rw [if_neg hid] at hi
      exact h.kept i us hi

private theorem mayKeep {p' : Progress} (h : Tracks d a r path s p) (hp : d.Place path e)
    (he : Kept a r s.visited p.bound e ts) (hp' : p.MayKeep e.id ts p') :
    Tracks d a r path s p' := by
  obtain rfl | rfl := hp'
  · exact h
  · exact h.remember hp.node he fun i hi => Or.inr hi

/-- What is kept for a leaf is no matter of inner nodes. -/
private theorem lookup_mayKeep {p' : Progress} (h : Tracks d a r path s p) (hp : d.Place path e)
    (he : ¬e.Inner) (hp' : p.MayKeep e.id ts p') {i : Nat} (hi : s.visited.lookup i ≠ none) :
    p'.memo.lookup i = p.memo.lookup i := by
  have hne : i ≠ e.id := by
    rintro rfl
    have hinner := h.inner e.id hi
    rw [hp.node] at hinner
    exact he hinner
  obtain rfl | rfl := hp'
  · rfl
  · rw [Progress.lookup_remember, if_neg hne]

/-- Tracking goes on when a new variable is bound. -/
theorem bind (h : Tracks d a r path s p) {v : Var} (hv : s.bound.lookup v.id = none)
    (hfits : (s.bind v.id).Fits d.function) (ts : List Tensor) :
    Tracks d a r path (s.bind v.id) (p.bind v ts) := by
  refine ⟨hfits, h.numbered, h.inner, h.entered, ?_, ?_⟩
  · intro x
    rw [Encoding.lookup_bind s hv, Progress.lookup_bind]
    split
    · simp
    · exact h.bound x
  · intro i us hi
    refine (h.kept i us hi).mono (.refl r) (Keeps.refl _) fun x xs hx => ?_
    have hne : x ≠ v.id := by
      rintro rfl
      rw [(h.bound v.id).mp hv] at hx
      exact nomatch hx
    rw [Progress.lookup_bind, if_neg hne]
    exact hx

end Tracks

end

/-! ### Two walks -/

/-- What two walks keep under one number looks alike, and both chose the same for their calls. -/
structure Paired (z : Twins) (w : Correspondence) (s t : Encoding) (p q : Progress) : Prop where
  visited : s.visited.length = t.visited.length
  bound : s.bound.length = t.bound.length
  vars : ∀ x y n ts ts', s.bound.lookup x = some n → t.bound.lookup y = some n →
    p.bound.lookup x = some ts → q.bound.lookup y = some ts' →
      (z.var x).type = (z.var y).type ∧ w.SameAll ts ts'
  nodes : ∀ i j n, s.visited.lookup i = some n → t.visited.lookup j = some n →
    Option.Rel (fun ts ts' =>
      (z.left.nodes.node i).type = (z.right.nodes.node j).type ∧ w.SameAll ts ts')
      (p.memo.lookup i) (q.memo.lookup j)
  calls : List.Forall₂ (LoweredCall.Alike w) p.calls q.calls
  ops : p.ops = q.ops

/-- Two walks have come equally far, and found what looks alike. Tensors are known by nothing else,
since one of them may have made a tensor again that the other one has kept. -/
structure Abreast (z : Twins) (a : Aspect) (w : Correspondence) (path path' : List Nat)
    (s t : Encoding) (p q : Progress) : Prop where
  loose : w.Loose
  old : ∀ i : SymId, i.draw < z.old → w.numbers i i
  left : Tracks z.left a w.left path s p
  right : Tracks z.right a w.right path' t q
  paired : Paired z w s t p q

section

variable {z : Twins} {a : Aspect} {w w' : Correspondence} {path path' : List Nat}
  {s t : Encoding} {p q : Progress} {e e' : Expr} {ts ts' : List Tensor}

theorem Paired.mono (hw : w.Grows w') (h : Paired z w s t p q) : Paired z w' s t p q := by
  refine ⟨h.visited, h.bound, ?_, ?_, h.calls.imp fun _ _ hc => hc.mono hw, h.ops⟩
  · intro x y n us us' hx hy hp hq
    obtain ⟨htype, hsame⟩ := h.vars x y n us us' hx hy hp hq
    exact ⟨htype, hw.sameAll hsame⟩
  · intro i j n hi hj
    have hrel := h.nodes i j n hi hj
    generalize p.memo.lookup i = o at hrel
    generalize q.memo.lookup j = o' at hrel
    cases hrel with
    | some hus => exact Option.Rel.some ⟨hus.1, hw.sameAll hus.2⟩
    | none => exact Option.Rel.none

namespace Abreast

theorem mono (hw : w.Grows w') (h : Abreast z a w path path' s t p q) :
    Abreast z a w' path path' s t p q :=
  ⟨h.loose.grows hw, fun i hi => hw.numbers i i (h.old i hi), h.left.mono hw.left,
    h.right.mono hw.right, h.paired.mono hw⟩

theorem emit (h : Abreast z a w path path' s t p q) (k k' : Token) :
    Abreast z a w path path' (s.emit k) (t.emit k') p q :=
  ⟨h.loose, h.old, h.left.emit k, h.right.emit k', ⟨h.paired.visited, h.paired.bound,
    h.paired.vars, h.paired.nodes, h.paired.calls, h.paired.ops⟩⟩

/-- Both walks note what was chosen for calls. -/
theorem withLog (h : Abreast z a w path path' s t p q) {calls calls' : List LoweredCall}
    (hcalls : List.Forall₂ (LoweredCall.Alike w) calls calls') {ops ops' : List String}
    (hops : ops = ops') :
    Abreast z a w path path' s t { p with calls, ops } { q with calls := calls', ops := ops' } :=
  ⟨h.loose, h.old, h.left.withLog calls ops, h.right.withLog calls' ops', ⟨h.paired.visited,
    h.paired.bound, h.paired.vars, h.paired.nodes, hcalls, hops⟩⟩

/-- Both walks enter a node that was not visited. -/
theorem enter (h : Abreast z a w path path' s t p q) (hp : z.left.Place path e)
    (hp' : z.right.Place path' e') (he : e.Inner) (he' : e'.Inner)
    (hs : s.visited.lookup e.id = none) (ht : t.visited.lookup e'.id = none) (k k' : Token) :
    Abreast z a w (e.id :: path) (e'.id :: path') (s.enter e.id k) (t.enter e'.id k') p q := by
  have hlen := h.paired.visited
  refine ⟨h.loose, h.old, h.left.enter hp he hs k, h.right.enter hp' he' ht k', ?_⟩
  refine ⟨congrArg (· + 1) hlen, h.paired.bound, h.paired.vars, ?_, h.paired.calls, h.paired.ops⟩
  intro i j n hi hj
  change (s.visit e.id).visited.lookup i = some n at hi
  change (t.visit e'.id).visited.lookup j = some n at hj
  rw [lookup_visit] at hi hj
  -- the new number is that of the nodes that are entered, which were not lowered yet
  by_cases hid : i = e.id
  · rw [if_pos hid] at hi
    by_cases hid' : j = e'.id
    · rw [hid, hid', h.left.lookup_eq_none hp he hs, h.right.lookup_eq_none hp' he' ht]
      exact Option.Rel.none
    · rw [if_neg hid'] at hj
      have hlt := h.right.numbered.lt j n hj
      have hn := Option.some.inj hi
      omega
  · rw [if_neg hid] at hi
    by_cases hid' : j = e'.id
    · rw [if_pos hid'] at hj
      have hlt := h.left.numbered.lt i n hi
      have hn := Option.some.inj hj
      omega
    · rw [if_neg hid'] at hj
      exact h.paired.nodes i j n hi hj

/-- Both walks leave the nodes that they entered last, with tensors that look alike. -/
theorem leave (h : Abreast z a w (e.id :: path) (e'.id :: path') s t p q)
    (hp : z.left.Place path e) (hp' : z.right.Place path' e') (he : e.Inner) (he' : e'.Inner)
    {n : Nat} (hs : s.visited.lookup e.id = some n) (ht : t.visited.lookup e'.id = some n)
    (htype : e.type = e'.type) (hts : w.SameAll ts ts') :
    Abreast z a w path path' s t (p.remember e.id ts) (q.remember e'.id ts') := by
  have hkept : Kept a w.left s.visited p.bound e ts :=
    .inner ts he (hs ▸ Option.some_ne_none n)
  have hkept' : Kept a w.right t.visited q.bound e' ts' :=
    .inner ts' he' (ht ▸ Option.some_ne_none n)
  refine ⟨h.loose, h.old, h.left.remember hp.node hkept fun i hi => List.mem_cons.mp hi,
    h.right.remember hp'.node hkept' fun i hi => List.mem_cons.mp hi, ?_⟩
  refine ⟨h.paired.visited, h.paired.bound, h.paired.vars, ?_, h.paired.calls, h.paired.ops⟩
  intro i j m hi hj
  rw [Progress.lookup_remember, Progress.lookup_remember]
  by_cases hid : i = e.id
  · subst hid
    obtain rfl : m = n := Option.some.inj (hi.symm.trans hs)
    obtain rfl := h.right.numbered.inj j e'.id m hj ht
    rw [if_pos rfl, if_pos rfl, hp.node, hp'.node]
    exact Option.Rel.some ⟨htype, hts⟩
  · have hid' : j ≠ e'.id := by
      rintro rfl
      obtain rfl : m = n := Option.some.inj (hj.symm.trans ht)
      exact hid (h.left.numbered.inj i e.id m hi hs)
    rw [if_neg hid, if_neg hid']
    exact h.paired.nodes i j m hi hj

/-- Either walk may keep the tensors of a leaf. -/
theorem mayKeep {p' q' : Progress} (h : Abreast z a w path path' s t p q)
    (hp : z.left.Place path e) (hp' : z.right.Place path' e') (he : ¬e.Inner) (he' : ¬e'.Inner)
    (hkept : Kept a w.left s.visited p.bound e ts)
    (hkept' : Kept a w.right t.visited q.bound e' ts') (hmay : p.MayKeep e.id ts p')
    (hmay' : q.MayKeep e'.id ts' q') : Abreast z a w path path' s t p' q' := by
  have hlog {p p' : Progress} {i : Nat} {us : List Tensor} (hmay : p.MayKeep i us p') :
      p'.bound = p.bound ∧ p'.calls = p.calls ∧ p'.ops = p.ops := by
    obtain rfl | rfl := hmay
    · exact ⟨rfl, rfl, rfl⟩
    · exact ⟨rfl, rfl, rfl⟩
  obtain ⟨hbound, hcalls, hops⟩ := hlog hmay
  obtain ⟨hbound', hcalls', hops'⟩ := hlog hmay'
  refine ⟨h.loose, h.old, h.left.mayKeep hp hkept hmay, h.right.mayKeep hp' hkept' hmay', ?_⟩
  refine ⟨h.paired.visited, h.paired.bound, ?_, ?_, ?_, ?_⟩
  · rw [hbound, hbound']
    exact h.paired.vars
  · intro i j n hi hj
    rw [h.left.lookup_mayKeep hp he hmay (hi ▸ Option.some_ne_none n),
      h.right.lookup_mayKeep hp' he' hmay' (hj ▸ Option.some_ne_none n)]
    exact h.paired.nodes i j n hi hj
  · rw [hcalls, hcalls']
    exact h.paired.calls
  · rw [hops, hops']
    exact h.paired.ops

/-- Both walks bind a variable to tensors that look alike. -/
theorem bind (h : Abreast z a w path path' s t p q) {x y : Var}
    (hx : s.bound.lookup x.id = none) (hy : t.bound.lookup y.id = none)
    (hfits : (s.bind x.id).Fits z.left.function) (hfits' : (t.bind y.id).Fits z.right.function)
    (htype : (z.var x.id).type = (z.var y.id).type) (hts : w.SameAll ts ts') :
    Abreast z a w path path' (s.bind x.id) (t.bind y.id) (p.bind x ts) (q.bind y ts') := by
  have hlen := h.paired.bound
  refine ⟨h.loose, h.old, h.left.bind hx hfits ts, h.right.bind hy hfits' ts', ?_⟩
  refine ⟨h.paired.visited, ?_, ?_, h.paired.nodes, h.paired.calls, h.paired.ops⟩
  · rw [bound_bind s hx, bound_bind t hy, List.length_cons, List.length_cons, hlen]
  · intro i j n us us' hi hj hus hus'
    rw [Encoding.lookup_bind s hx] at hi
    rw [Encoding.lookup_bind t hy] at hj
    rw [Progress.lookup_bind] at hus hus'
    by_cases hix : i = x.id
    · rw [if_pos hix] at hi hus
      by_cases hjy : j = y.id
      · rw [if_pos hjy] at hus'
        obtain rfl := Option.some.inj hus
        obtain rfl := Option.some.inj hus'
        rw [hix, hjy]
        exact ⟨htype, hts⟩
      · rw [if_neg hjy] at hj
        have hlt := h.right.fits.numbered.lt j n hj
        have hn := Option.some.inj hi
        omega
    · rw [if_neg hix] at hi hus
      by_cases hjy : j = y.id
      · rw [if_pos hjy] at hj
        have hlt := h.left.fits.numbered.lt i n hi
        have hn := Option.some.inj hj
        omega
      · rw [if_neg hjy] at hj hus'
        exact h.paired.vars i j n us us' hi hj hus hus'

end Abreast

end

end TensorLowering
