import TensorLowering.Proofs.Fingerprint.Tables
import Mathlib.Data.List.Forall2

/-!
# Two graphs with one text

When two expressions are encoded to the same tokens, the two encoders visit their nodes in the
same order. Nodes with one number then have the same contents, where an inner node below is only
known by its own number (`Matches`). This holds of any two expressions, whatever variables they
bind. If the binders are distinct and no variable occurs outside its scope, then moreover
variables that correspond have one number (`SameNumber`).

Both statements are proved by one induction along the two encoders, `follow`; the proposition
`tidy` tells which of them is meant.
-/

namespace TensorLowering

open Encoding

/-! ### Corresponding contents -/

/-- In the tables of the two encodings, variables have one number, or they are free and equal. -/
def SameNumber (S T : Encoding) (x y : Nat) : Prop :=
  S.bound.lookup x = T.bound.lookup y ∧ (S.bound.lookup x = none → x = y)

/-- Two expressions correspond, where inner nodes are known by their numbers. -/
inductive Linked (tidy : Prop) (S T : Encoding) : Expr → Expr → Prop where
  | var (i j : Nat) {v w : Var} : (tidy → SameNumber S T v.id w.id) →
      Linked tidy S T (.var i v) (.var j w)
  | const (i j : Nat) (t : TensorType) (data : List UInt8) :
      Linked tidy S T (.const i t data) (.const j t data)
  | inner {e e' : Expr} {n : Nat} : e.Inner → e'.Inner → S.visited.lookup e.id = some n →
      T.visited.lookup e'.id = some n → Linked tidy S T e e'

/-- Two inner nodes have the same contents, where what is below is known by its number. -/
inductive Matches (tidy : Prop) (S T : Encoding) : Expr → Expr → Prop where
  | call (i j : Nat) (op : String) (attrs : Attrs) (t : Ty) {args args' : List Expr} :
      List.Forall₂ (Linked tidy S T) args args' →
        Matches tidy S T (.call i op attrs args t) (.call j op attrs args' t)
  | tuple (i j : Nat) {fields fields' : List Expr} :
      List.Forall₂ (Linked tidy S T) fields fields' →
        Matches tidy S T (.tuple i fields) (.tuple j fields')
  | proj (i j n : Nat) {e e' : Expr} : Linked tidy S T e e' →
      Matches tidy S T (.proj i e n) (.proj j e' n)
  | letIn (i j : Nat) {v w : Var} {value value' body body' : Expr} : v.type = w.type →
      (tidy → ∃ n, S.bound.lookup v.id = some n ∧ T.bound.lookup w.id = some n) →
      Linked tidy S T value value' → Linked tidy S T body body' →
        Matches tidy S T (.letIn i v value body) (.letIn j w value' body')

/-! ### Encodings in step -/

/-- Two encodings have given equally many numbers; and if the functions are tidy, to nodes and
variables alike. -/
structure InStep (tidy : Prop) (f g : Function) (s t : Encoding) : Prop where
  left : Numbered s.visited
  right : Numbered t.visited
  visited : s.visited.length = t.visited.length
  fitsLeft : tidy → s.Fits f
  fitsRight : tidy → t.Fits g
  bound : tidy → s.bound.length = t.bound.length

/-- What is known of an expression that is about to be encoded below the binders `xs`, if the
function is tidy. -/
structure Stage (f : Function) (xs : List Nat) (s : Encoding) (e : Expr) : Prop where
  lets : e.lets ⊆ f.body.lets
  inScope : ∀ path ys x, e.Occurs xs path ys x → f.Binds x → x ∈ ys
  bound : ∀ x ∈ xs, s.bound.lookup x ≠ none

/-- The encoding ends in the tables of `S`. -/
structure Settles (tidy : Prop) (f : Function) (s S : Encoding) : Prop where
  visited : Keeps s.visited S.visited
  bound : tidy → Keeps s.bound S.bound
  fits : tidy → S.Fits f

/-- The nodes of equal numbers that were given between `s` and `s'` have the same contents. -/
def NewPairs (tidy : Prop) (S T : Encoding) (c c' : Catalogue) (s s' t' : Encoding) : Prop :=
  ∀ i j n, s.visited.length ≤ n → s'.visited.lookup i = some n → t'.visited.lookup j = some n →
    Matches tidy S T (c.node i) (c'.node j)

section

variable {tidy : Prop} {f g : Function} {S T s t s' t' s'' t'' : Encoding} {c c' : Catalogue}
  {xs : List Nat} {id id' : Nat}

/-- Encodings stay in step when both enter an inner node for the first time. -/
theorem InStep.enter (h : InStep tidy f g s t) (hs : s.visited.lookup id = none)
    (ht : t.visited.lookup id' = none) (k k' : Token) :
    InStep tidy f g (s.enter id k) (t.enter id' k') := by
  refine ⟨h.left.cons hs, h.right.cons ht, congrArg (· + 1) h.visited, ?_, ?_, h.bound⟩
  · intro htidy
    exact (Extends.enter [] (h.fitsLeft htidy) hs k).fits
  · intro htidy
    exact (Extends.enter [] (h.fitsRight htidy) ht k').fits

/-- They stay in step when both write a token. -/
theorem InStep.emit (h : InStep tidy f g s t) (k k' : Token) :
    InStep tidy f g (s.emit k) (t.emit k') := by
  refine ⟨h.left, h.right, h.visited, fun htidy => ?_, fun htidy => ?_, h.bound⟩
  · exact ⟨(h.fitsLeft htidy).numbered, (h.fitsLeft htidy).settled⟩
  · exact ⟨(h.fitsRight htidy).numbered, (h.fitsRight htidy).settled⟩

/-- They stay in step when both bind a variable. -/
theorem InStep.bind (h : InStep tidy f g s t) {x y : Nat} (hx : tidy → s.bound.lookup x = none)
    (hy : tidy → t.bound.lookup y = none) (hf : tidy → (s.bind x).Fits f)
    (hg : tidy → (t.bind y).Fits g) : InStep tidy f g (s.bind x) (t.bind y) := by
  refine ⟨h.left, h.right, h.visited, hf, hg, fun htidy => ?_⟩
  rw [bound_bind s (hx htidy), bound_bind t (hy htidy), List.length_cons, List.length_cons,
    h.bound htidy]

private theorem Settles.before (h : Settles tidy f s' S) (hv : Keeps s.visited s'.visited)
    (hb : tidy → Keeps s.bound s'.bound) : Settles tidy f s S :=
  ⟨hv.trans h.visited, fun ht => (hb ht).trans (h.bound ht), h.fits⟩

/-! ### Stages of the parts -/

/-- A part that is due stays due when more variables are bound. -/
theorem Stage.later {e : Expr} (h : Stage f xs s e) (hb : Keeps s.bound s'.bound) :
    Stage f xs s' e :=
  ⟨h.lets, h.inScope, fun x hx => hb.lookup_ne_none (h.bound x hx)⟩

/-- Once a call was entered its arguments are due. -/
theorem Stage.call {op : String} {attrs : Attrs} {args : List Expr} {ty : Ty}
    (h : Stage f xs s (.call id op attrs args ty)) (k : Token) :
    ∀ e ∈ args, Stage f xs (s.enter id k) e := by
  intro e he
  refine ⟨List.Subset.trans (Expr.lets_subset_letsAll he) h.lets, ?_, h.bound⟩
  intro path ys x hocc hx
  obtain ⟨i, hi⟩ := List.mem_iff_getElem?.mp he
  exact h.inScope (i :: path) ys x (.call id op attrs ty hi hocc) hx

/-- Once a tuple was entered its fields are due. -/
theorem Stage.tuple {fields : List Expr} (h : Stage f xs s (.tuple id fields)) (k : Token) :
    ∀ e ∈ fields, Stage f xs (s.enter id k) e := by
  intro e he
  refine ⟨List.Subset.trans (Expr.lets_subset_letsAll he) h.lets, ?_, h.bound⟩
  intro path ys x hocc hx
  obtain ⟨i, hi⟩ := List.mem_iff_getElem?.mp he
  exact h.inScope (i :: path) ys x (.tuple id hi hocc) hx

/-- Once a projection was entered its tuple is due. -/
theorem Stage.proj {e : Expr} {i : Nat} (h : Stage f xs s (.proj id e i)) (k : Token) :
    Stage f xs (s.enter id k) e :=
  ⟨h.lets, fun path ys x hocc => h.inScope (0 :: path) ys x (.proj id i hocc), h.bound⟩

/-- Once a local definition was entered its value is due. -/
theorem Stage.value {v : Var} {value body : Expr} (h : Stage f xs s (.letIn id v value body))
    (k : Token) : Stage f xs (s.enter id k) value := by
  refine ⟨?_, fun path ys x hocc => h.inScope (0 :: path) ys x (.letValue id v body hocc), h.bound⟩
  exact List.Subset.trans (List.subset_cons_of_subset _ (List.subset_append_left _ _)) h.lets

/-- Once its variable is bound, the body of a local definition is due. -/
theorem Stage.body {v : Var} {value body : Expr} (h : Stage f xs s (.letIn id v value body))
    (hb : Keeps s.bound s'.bound) (hv : s'.bound.lookup v.id ≠ none) :
    Stage f (v.id :: xs) s' body := by
  refine ⟨?_, fun path ys x hocc => h.inScope (1 :: path) ys x (.letBody id v value hocc), ?_⟩
  · exact List.Subset.trans (List.subset_cons_of_subset _ (List.subset_append_right _ _)) h.lets
  · intro x hx
    obtain rfl | hx := List.mem_cons.mp hx
    · exact hv
    · exact hb.lookup_ne_none (h.bound x hx)

/-- Numbers are kept while the body of the definition is encoded. -/
private theorem Stage.keeps_body {v : Var} {value body : Expr} (hf : f.Distinct)
    (h : Stage f xs s (.letIn id v value body))
    (hbind : s'.bound.lookup v.id = none ∧ Extends f ((id, v.id) :: value.lets) s (s'.bind v.id)) :
    Keeps s'.bound ((s'.bind v.id).encode body).bound ∧
      Keeps (s'.bind v.id).bound ((s'.bind v.id).encode body).bound := by
  have hlets := (h.body hbind.2.keeps (lookup_bind_ne_none _ _)).lets
  have hbody := (extends_encode hf hbind.2.fits body hlets).keeps
  refine ⟨Keeps.trans ?_ hbody, hbody⟩
  rw [bound_bind s' hbind.1]
  exact Keeps.cons hbind.1 _

/-! ### Pairs of nodes -/

theorem NewPairs.refl (hs : Numbered s.visited) : NewPairs tidy S T c c' s s t := by
  intro i j n hn hi _
  have := hs.lt i n hi
  omega

/-- What follows a state that is in step has its own pairs. -/
theorem NewPairs.trans (h : NewPairs tidy S T c c' s s' t')
    (h' : NewPairs tidy S T c c' s' s'' t'') (hst' : InStep tidy f g s' t')
    (hst'' : InStep tidy f g s'' t'') (hs : Keeps s'.visited s''.visited)
    (ht : Keeps t'.visited t''.visited) : NewPairs tidy S T c c' s s'' t'' := by
  intro i j n hn hi hj
  by_cases hlt : n < s'.visited.length
  · have hi' := hst'.left.lookup_of_lt hst''.left hs hlt hi
    have hj' := hst'.right.lookup_of_lt hst''.right ht (hst'.visited ▸ hlt) hj
    exact h i j n hn hi' hj'
  · exact h' i j n (by omega) hi hj

/-- The node that was entered first, and what was entered below it. -/
private theorem NewPairs.node {k k' : Token}
    (h : NewPairs tidy S T c c' (s.enter id k) s' t') (hst : InStep tidy f g s t)
    (hst' : InStep tidy f g s' t') (hs : Keeps (s.enter id k).visited s'.visited)
    (ht : Keeps (t.enter id' k').visited t'.visited)
    (hm : Matches tidy S T (c.node id) (c'.node id')) : NewPairs tidy S T c c' s s' t' := by
  intro i j n hn hi hj
  by_cases hfirst : n = s.visited.length
  · subst hfirst
    have hid := hs id _ (lookup_visit_self s id)
    have hid' := ht id' _ (lookup_visit_self t id')
    rw [← hst.visited] at hid'
    rw [hst'.left.inj i id _ hi hid, hst'.right.inj j id' _ hj hid']
    exact hm
  · refine h i j n ?_ hi hj
    change s.visited.length + 1 ≤ n
    omega

/-- The numbers of the nodes that were entered. -/
theorem Linked.of_enter {e e' : Expr} {k k' : Token} (he : e.Inner) (he' : e'.Inner)
    (hst : InStep tidy f g s t) (hs : Keeps (s.enter e.id k).visited S.visited)
    (ht : Keeps (t.enter e'.id k').visited T.visited) : Linked tidy S T e e' := by
  refine Linked.inner he he' (hs e.id _ (lookup_visit_self s e.id)) ?_
  rw [hst.visited]
  exact ht e'.id _ (lookup_visit_self t e'.id)

/-! ### Along the two encoders -/

/-- Variables that are written alike have one number in the end. -/
theorem SameNumber.of_occurrence {v w : Var} {ys : List Nat} (hf : Stage f xs s (.var id v))
    (hg : Stage g ys t (.var id' w)) (hS : Keeps s.bound S.bound) (hT : Keeps t.bound T.bound)
    (hSf : S.Fits f) (hTg : T.Fits g) (h : s.occurrence v = t.occurrence w) :
    SameNumber S T v.id w.id := by
  obtain ⟨hst, hfree⟩ := lookup_eq_of_occurrence h
  cases hs : s.bound.lookup v.id with
  | some n =>
    rw [SameNumber, hS _ _ hs, hT _ _ (hst ▸ hs)]
    exact ⟨rfl, fun h => absurd h (Option.some_ne_none _)⟩
  | none =>
    have ht : t.bound.lookup w.id = none := hst ▸ hs
    -- a variable without a number here is bound nowhere, or else it would occur in its scope
    have hv : S.bound.lookup v.id = none := by
      by_contra hne
      exact hf.bound _ (hf.inScope [] xs v.id (.var id v xs) (hSf.binds hne)) hs
    have hw : T.bound.lookup w.id = none := by
      by_contra hne
      exact hg.bound _ (hg.inScope [] ys w.id (.var id' w ys) (hTg.binds hne)) ht
    exact ⟨hv.trans hw.symm, fun _ => hfree hs⟩

/-- A node that was entered before is met again. -/
private theorem follow_again {e e' : Expr} {n : Nat} (he : e.Inner)
    (hn : s.visited.lookup e.id = some n) (hst : InStep tidy f g s t)
    (h : s.tokens e = t.tokens e') : InStep tidy f g (s.encode e) (t.encode e') ∧
      (Settles tidy f (s.encode e) S → Settles tidy g (t.encode e') T →
        Linked tidy S T e e' ∧
          NewPairs tidy S T c c' s (s.encode e) (t.encode e')) := by
  rw [tokens_of_visited he hn] at h
  obtain ⟨he', hn'⟩ := tokens_eq_shared h
  rw [encode_of_visited he hn, encode_of_visited he' hn']
  refine ⟨hst.emit _ _, fun hS hT => ?_⟩
  exact ⟨Linked.inner he he' (hS.visited _ _ hn) (hT.visited _ _ hn'), NewPairs.refl hst.left⟩

variable (hf : tidy → f.Distinct) (hg : tidy → g.Distinct)

include hf hg

mutual

/-- **Along two encoders.** Encoders in step that write the same tokens stay in step, and the
nodes they enter have the same contents in the tables in which they end. -/
theorem follow : (e : Expr) → ∀ {s t : Encoding} {e' : Expr} {xs ys : List Nat},
    InStep tidy f g s t → e.In c → e'.In c' → (tidy → Stage f xs s e) → (tidy → Stage g ys t e') →
    s.tokens e = t.tokens e' →
    InStep tidy f g (s.encode e) (t.encode e') ∧
      (Settles tidy f (s.encode e) S → Settles tidy g (t.encode e') T →
        Linked tidy S T e e' ∧
          NewPairs tidy S T c c' s (s.encode e) (t.encode e'))
  | .var id v, s, t, e', xs, ys, hst, _, _, hs, ht, h => by
    obtain ⟨id', w, rfl, hvw⟩ := tokens_eq_occurrence h
    refine ⟨hst.emit _ _, fun hS hT => ?_⟩
    refine ⟨Linked.var id id' fun htidy => ?_, NewPairs.refl hst.left⟩
    exact SameNumber.of_occurrence (hs htidy) (ht htidy) (hS.bound htidy) (hT.bound htidy)
      (hS.fits htidy) (hT.fits htidy) hvw
  | .const id ty data, s, t, e', xs, ys, hst, _, _, hs, ht, h => by
    obtain ⟨id', rfl⟩ := tokens_eq_const h
    refine ⟨hst.emit _ _, fun _ _ => ?_⟩
    exact ⟨Linked.const id id' ty data, NewPairs.refl hst.left⟩
  | .call id op attrs args ty, s, t, e', xs, ys, hst, hc, hc', hs, ht, h => by
    cases hid : s.visited.lookup id with
    | some n => exact follow_again trivial hid hst h
    | none =>
      obtain ⟨id', args', rfl, hid', hlen, h⟩ := tokens_eq_call hid h
      rw [encode_call hid, encode_call hid']
      have henter := hst.enter hid hid' (.call op attrs args.length ty)
        (.call op attrs args'.length ty)
      obtain ⟨hend, hpairs⟩ := followAll args henter hc.2 hc'.2 (fun htidy => (hs htidy).call _)
        (fun htidy => (ht htidy).call _) hlen h
      refine ⟨hend, fun hS hT => ?_⟩
      obtain ⟨hlinks, hnew⟩ := hpairs hS hT
      have hk := keeps_visited_encodeAll (s.enter id (.call op attrs args.length ty)) args
      have hk' := keeps_visited_encodeAll (t.enter id' (.call op attrs args'.length ty)) args'
      refine ⟨?_, hnew.node hst hend hk hk' ?_⟩
      · exact Linked.of_enter trivial trivial hst (hk.trans hS.visited) (hk'.trans hT.visited)
      · rw [hc.1, hc'.1]
        exact Matches.call id id' op attrs ty hlinks
  | .tuple id fields, s, t, e', xs, ys, hst, hc, hc', hs, ht, h => by
    cases hid : s.visited.lookup id with
    | some n => exact follow_again trivial hid hst h
    | none =>
      obtain ⟨id', fields', rfl, hid', hlen, h⟩ := tokens_eq_tuple hid h
      rw [encode_tuple hid, encode_tuple hid']
      have henter := hst.enter hid hid' (.tuple fields.length) (.tuple fields'.length)
      obtain ⟨hend, hpairs⟩ := followAll fields henter hc.2 hc'.2
        (fun htidy => (hs htidy).tuple _) (fun htidy => (ht htidy).tuple _) hlen h
      refine ⟨hend, fun hS hT => ?_⟩
      obtain ⟨hlinks, hnew⟩ := hpairs hS hT
      have hk := keeps_visited_encodeAll (s.enter id (.tuple fields.length)) fields
      have hk' := keeps_visited_encodeAll (t.enter id' (.tuple fields'.length)) fields'
      refine ⟨?_, hnew.node hst hend hk hk' ?_⟩
      · exact Linked.of_enter trivial trivial hst (hk.trans hS.visited) (hk'.trans hT.visited)
      · rw [hc.1, hc'.1]
        exact Matches.tuple id id' hlinks
  | .proj id e i, s, t, e', xs, ys, hst, hc, hc', hs, ht, h => by
    cases hid : s.visited.lookup id with
    | some n => exact follow_again trivial hid hst h
    | none =>
      obtain ⟨id', d, rfl, hid', h⟩ := tokens_eq_proj hid h
      rw [encode_proj hid, encode_proj hid']
      have henter := hst.enter hid hid' (.proj i) (.proj i)
      obtain ⟨hend, hpairs⟩ := follow e henter hc.2 hc'.2 (fun htidy => (hs htidy).proj _)
        (fun htidy => (ht htidy).proj _) h
      refine ⟨hend, fun hS hT => ?_⟩
      obtain ⟨hlink, hnew⟩ := hpairs hS hT
      have hk := keeps_visited_encode (s.enter id (.proj i)) e
      have hk' := keeps_visited_encode (t.enter id' (.proj i)) d
      refine ⟨?_, hnew.node hst hend hk hk' ?_⟩
      · exact Linked.of_enter trivial trivial hst (hk.trans hS.visited) (hk'.trans hT.visited)
      · rw [hc.1, hc'.1]
        exact Matches.proj id id' i hlink
  | .letIn id v value body, s, t, e', xs, ys, hst, hc, hc', hs, ht, h => by
    cases hid : s.visited.lookup id with
    | some n => exact follow_again trivial hid hst h
    | none =>
      obtain ⟨id', w, value', body', rfl, hid', hty, hvalue, hbody⟩ := tokens_eq_letIn hid h
      rw [encode_letIn hid, encode_letIn hid']
      have henter := hst.enter hid hid' (.letIn v.type) (.letIn w.type)
      obtain ⟨hmid, hpairs⟩ := follow value henter hc.2.1 hc'.2.1
        (fun htidy => (hs htidy).value _) (fun htidy => (ht htidy).value _) hvalue
      have hleft := fun htidy => extends_letIn (hf htidy) (hst.fitsLeft htidy) (hs htidy).lets hid
      have hright := fun htidy =>
        extends_letIn (hg htidy) (hst.fitsRight htidy) (ht htidy).lets hid'
      have hbind := hmid.bind (fun htidy => (hleft htidy).1) (fun htidy => (hright htidy).1)
        (fun htidy => (hleft htidy).2.fits) (fun htidy => (hright htidy).2.fits)
      obtain ⟨hend, hpairs'⟩ := follow body hbind hc.2.2 hc'.2.2
        (fun htidy => (hs htidy).body (hleft htidy).2.keeps (lookup_bind_ne_none _ _))
        (fun htidy => (ht htidy).body (hright htidy).2.keeps (lookup_bind_ne_none _ _)) hbody
      refine ⟨hend, fun hS hT => ?_⟩
      have hb := fun htidy => Stage.keeps_body (hf htidy) (hs htidy) (hleft htidy)
      have hb' := fun htidy => Stage.keeps_body (hg htidy) (ht htidy) (hright htidy)
      have hkv := keeps_visited_encode (s.enter id (.letIn v.type)) value
      have hkv' := keeps_visited_encode (t.enter id' (.letIn w.type)) value'
      have hkb := keeps_visited_encode (((s.enter id (.letIn v.type)).encode value).bind v.id) body
      have hkb' :=
        keeps_visited_encode (((t.enter id' (.letIn w.type)).encode value').bind w.id) body'
      obtain ⟨hlink, hnew⟩ := hpairs (hS.before hkb fun htidy => (hb htidy).1)
        (hT.before hkb' fun htidy => (hb' htidy).1)
      obtain ⟨hlink', hnew'⟩ := hpairs' hS hT
      refine ⟨?_, (hnew.trans hnew' hmid hend hkb hkb').node hst hend (hkv.trans hkb)
        (hkv'.trans hkb') ?_⟩
      · exact Linked.of_enter trivial trivial hst ((hkv.trans hkb).trans hS.visited)
          ((hkv'.trans hkb').trans hT.visited)
      · rw [hc.1, hc'.1]
        refine Matches.letIn id id' hty (fun htidy => ?_) hlink hlink'
        refine ⟨_, hS.bound htidy _ _ ((hb htidy).2 _ _ (lookup_bind_self _ _)), ?_⟩
        rw [hmid.bound htidy]
        exact hT.bound htidy _ _ ((hb' htidy).2 _ _ (lookup_bind_self _ _))

/-- The same for lists of expressions of one length. -/
theorem followAll : (es : List Expr) → ∀ {s t : Encoding} {es' : List Expr} {xs ys : List Nat},
    InStep tidy f g s t → Expr.InAll c es → Expr.InAll c' es' →
    (tidy → ∀ e ∈ es, Stage f xs s e) → (tidy → ∀ e ∈ es', Stage g ys t e) →
    es.length = es'.length → s.tokensAll es = t.tokensAll es' →
    InStep tidy f g (s.encodeAll es) (t.encodeAll es') ∧
      (Settles tidy f (s.encodeAll es) S → Settles tidy g (t.encodeAll es') T →
        List.Forall₂ (Linked tidy S T) es es' ∧
          NewPairs tidy S T c c' s (s.encodeAll es) (t.encodeAll es'))
  | [], s, t, es', xs, ys, hst, _, _, hs, ht, hlen, h => by
    obtain rfl := List.length_eq_zero_iff.mp hlen.symm
    exact ⟨hst, fun _ _ => ⟨List.Forall₂.nil, NewPairs.refl hst.left⟩⟩
  | e :: es, s, t, [], xs, ys, hst, hc, hc', hs, ht, hlen, h => by simp at hlen
  | e :: es, s, t, e' :: es', xs, ys, hst, hc, hc', hs, ht, hlen, h => by
    obtain ⟨hhead, htail⟩ := tokensAll_cons_inj h
    obtain ⟨hmid, hpairs⟩ := follow e hst hc.1 hc'.1
      (fun htidy => hs htidy e List.mem_cons_self) (fun htidy => ht htidy e' List.mem_cons_self)
      hhead
    have hleft := fun htidy =>
      extends_encode (hf htidy) (hst.fitsLeft htidy) e (hs htidy e List.mem_cons_self).lets
    have hright := fun htidy =>
      extends_encode (hg htidy) (hst.fitsRight htidy) e' (ht htidy e' List.mem_cons_self).lets
    obtain ⟨hend, hpairs'⟩ := followAll es hmid hc.2 hc'.2
      (fun htidy d hd => (hs htidy d (List.mem_cons_of_mem _ hd)).later (hleft htidy).keeps)
      (fun htidy d hd => (ht htidy d (List.mem_cons_of_mem _ hd)).later (hright htidy).keeps)
      (Nat.succ.inj hlen) htail
    refine ⟨hend, fun hS hT => ?_⟩
    have hk := keeps_visited_encodeAll (s.encode e) es
    have hk' := keeps_visited_encodeAll (t.encode e') es'
    have hb := fun htidy => (extends_encodeAll (hf htidy) (hleft htidy).fits es
      (Expr.letsAll_subset fun d hd => (hs htidy d (List.mem_cons_of_mem _ hd)).lets)).keeps
    have hb' := fun htidy => (extends_encodeAll (hg htidy) (hright htidy).fits es'
      (Expr.letsAll_subset fun d hd => (ht htidy d (List.mem_cons_of_mem _ hd)).lets)).keeps
    obtain ⟨hlink, hnew⟩ := hpairs (hS.before hk hb) (hT.before hk' hb')
    obtain ⟨hlinks, hnew'⟩ := hpairs' hS hT
    exact ⟨List.Forall₂.cons hlink hlinks, hnew.trans hnew' hmid hend hk hk'⟩

end

end

end TensorLowering
