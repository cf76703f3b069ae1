import TensorLowering.Proofs.Lowering.InOrder

/-!
# What a walk visits

A visit of an expression leads to visits of its parts, if the expression was not lowered before
(`Visit.Leads`). `Walk.Visits` says which visits are made while a function is lowered, also if the
lowering fails in the end, and `Walk.Yields` which tensors the ones that end well give for an
expression.

The tensors that are kept were made by visits (`Visit.visitRule_grows`). Of two visits one leads to
the other, or one has ended before the other begins (`Visit.reaches_or_precedes`). So an expression
never yields different tensors (`Walk.Yields.unique`), and what it yields was made for it once
(`Walk.Yields.exists_missed`).
-/

namespace TensorLowering

open TensorLowering.Action

variable {σ : Type}

/-! ### Visiting several expressions -/

namespace Walk

section

variable {w : Walk σ} {s s' : Progress} {n n' : Machine σ} {ts : List Tensor} {e : Expr}
  {ds es : List Expr}

/-- A visit of no nodes does nothing. -/
theorem visitAll_nil_iff : w.visitAll s [] n = (.ok (ts, s'), n') ↔ [] = ts ∧ s = s' ∧ n = n' :=
  pure_pair_eq_ok_iff

/-- Nodes are visited one after the other, and their tensors are joined. -/
theorem visitAll_cons_iff : w.visitAll s (e :: es) n = (.ok (ts, s'), n') ↔
    ∃ us s₁ n₁ vs, w.visit s e n = (.ok (us, s₁), n₁) ∧
      w.visitAll s₁ es n₁ = (.ok (vs, s'), n') ∧ us ++ vs = ts := by
  constructor
  · intro h
    obtain ⟨⟨us, s₁⟩, n₁, hfirst, hafter⟩ := bind_eq_ok_iff.mp h
    obtain ⟨⟨vs, s₂⟩, n₂, hrest, hend⟩ := bind_eq_ok_iff.mp hafter
    obtain ⟨rfl, rfl, rfl⟩ := pure_pair_eq_ok_iff.mp hend
    exact ⟨us, s₁, n₁, vs, hfirst, hrest, rfl⟩
  · rintro ⟨us, s₁, n₁, vs, hfirst, hrest, rfl⟩
    exact bind_eq_ok_iff.mpr ⟨(us, s₁), n₁, hfirst, bind_eq_ok_iff.mpr ⟨(vs, s'), n', hrest, rfl⟩⟩

private theorem visitAll_singleton (h : w.visit s e n = (.ok (ts, s'), n')) :
    w.visitAll s [e] n = (.ok (ts ++ [], s'), n') :=
  visitAll_cons_iff.mpr ⟨ts, s', n', [], h, rfl, rfl⟩

/-- Visiting expressions from left to right is visiting the first ones and then the others. -/
theorem visitAll_append_iff : w.visitAll s (ds ++ es) n = (.ok (ts, s'), n') ↔
    ∃ us s₁ n₁ vs, w.visitAll s ds n = (.ok (us, s₁), n₁) ∧
      w.visitAll s₁ es n₁ = (.ok (vs, s'), n') ∧ us ++ vs = ts := by
  induction ds generalizing s n ts with
  | nil =>
    constructor
    · exact fun h => ⟨[], s, n, ts, rfl, h, rfl⟩
    · rintro ⟨us, s₁, n₁, vs, hnil, h, rfl⟩
      obtain ⟨rfl, rfl, rfl⟩ := visitAll_nil_iff.mp hnil
      exact h
  | cons d ds ih =>
    rw [List.cons_append, visitAll_cons_iff]
    constructor
    · rintro ⟨us, s₁, n₁, vs, hd, hrest, rfl⟩
      obtain ⟨us', s₂, n₂, vs', hds, hes, rfl⟩ := ih.mp hrest
      exact ⟨us ++ us', s₂, n₂, vs', visitAll_cons_iff.mpr ⟨us, s₁, n₁, us', hd, hds, rfl⟩, hes,
        List.append_assoc ..⟩
    · rintro ⟨us, s₂, n₂, vs, hfirst, hes, rfl⟩
      obtain ⟨us₁, s₁, n₁, us₂, hd, hds, rfl⟩ := visitAll_cons_iff.mp hfirst
      exact ⟨us₁, s₁, n₁, us₂ ++ vs, hd, ih.mpr ⟨us₂, s₂, n₂, vs, hds, hes, rfl⟩,
        (List.append_assoc ..).symm⟩

end

end Walk

/-! ### Visits that are made -/

/-- A visit: what it begins with, and the expression that is visited. -/
structure Visit (σ : Type) where
  progress : Progress
  machine : Machine σ
  node : Expr

namespace Visit

/-- The expression was not lowered before. -/
def Missed (a : Visit σ) : Prop := a.progress.memo.lookup a.node.id = none

/-- The visit ends well, with these tensors, this progress and this machine. -/
def Ends (w : Walk σ) (a : Visit σ) (ts : List Tensor) (s : Progress) (n : Machine σ) : Prop :=
  w.visit a.progress a.node a.machine = (.ok (ts, s), n)

/-- The first visit leads to the second one, that of a part: the parts before it were visited. -/
inductive Leads (w : Walk σ) : Visit σ → Visit σ → Prop
  | part {a : Visit σ} {before after : List Expr} {e : Expr} {us : List Tensor} {s : Progress}
      {n : Machine σ} : a.Missed → a.node.parts = before ++ e :: after →
      w.visitAll a.progress before a.machine = (.ok (us, s), n) → Leads w a ⟨s, n, e⟩
  | body {a : Visit σ} {id : Nat} {v : Var} {value body : Expr} {us : List Tensor} {s : Progress}
      {n : Machine σ} : a.Missed → a.node = .letIn id v value body →
      w.visit a.progress value a.machine = (.ok (us, s), n) → Leads w a ⟨s.bind v us, n, body⟩

/-- The first visit leads to the second one in any number of steps. -/
def Reaches (w : Walk σ) : Visit σ → Visit σ → Prop := Relation.ReflTransGen (Leads w)

/-- The tensors were made for a node of this number on the way. -/
def Makes (w : Walk σ) (a : Visit σ) (i : Nat) (ts : List Tensor) : Prop :=
  ∃ b, a.Reaches w b ∧ b.Missed ∧ b.node.id = i ∧ ∃ s n, b.Ends w ts s n

end Visit

namespace Walk

/-- The visit is made while the function is lowered. -/
def Visits (w : Walk σ) (f : Function) (m : Machine σ) (a : Visit σ) : Prop :=
  ∃ inputs s n, w.bindParams .start f.params m = (.ok (inputs, s), n) ∧
    Visit.Reaches w ⟨s, n, f.body⟩ a

/-- A visit of the expression is made while the function is lowered, and it ends well with these
tensors. -/
def Yields (w : Walk σ) (f : Function) (m : Machine σ) (e : Expr) (ts : List Tensor) : Prop :=
  ∃ a s n, w.Visits f m a ∧ a.node = e ∧ a.Ends w ts s n

end Walk

/-! ### What is kept was made -/

/-- What was kept is kept. -/
def Progress.Keeps (s s' : Progress) : Prop :=
  ∀ i ts, s.memo.lookup i = some ts → s'.memo.lookup i = some ts

/-- What was kept is kept, and what is kept now and was not before was made. -/
structure Progress.Grows (s s' : Progress) (made : Nat → List Tensor → Prop) : Prop where
  keeps : s.Keeps s'
  new : ∀ i ts, s'.memo.lookup i = some ts → s.memo.lookup i = some ts ∨ made i ts

namespace Progress

variable {s s₁ s' : Progress} {made made' : Nat → List Tensor → Prop}

theorem Keeps.refl (s : Progress) : s.Keeps s := fun _ _ hi => hi

/-- What is remembered is kept if it is the same. -/
theorem Keeps.of_eq (h : s'.memo = s.memo) : s.Keeps s' := fun i ts hi => by rwa [h]

theorem Keeps.trans (h : s.Keeps s₁) (h' : s₁.Keeps s') : s.Keeps s' :=
  fun i ts hi => h' i ts (h i ts hi)

/-- Nothing grows where nothing is remembered anew. -/
theorem Grows.of_eq (h : s'.memo = s.memo) : s.Grows s' made :=
  ⟨.of_eq h, fun i ts hi => Or.inl (by rwa [← h])⟩

/-- What grows twice has grown by what was made in both. -/
theorem Grows.trans (h : s.Grows s₁ made) (h' : s₁.Grows s' made) : s.Grows s' made := by
  refine ⟨h.keeps.trans h'.keeps, fun i ts hi => ?_⟩
  obtain hi | hmade := h'.new i ts hi
  · exact h.new i ts hi
  · exact Or.inr hmade

/-- More may have been made. -/
theorem Grows.imp (h : s.Grows s' made) (hmade : ∀ i ts, made i ts → made' i ts) :
    s.Grows s' made' :=
  ⟨h.keeps, fun i ts hi => (h.new i ts hi).imp id (hmade i ts)⟩

end Progress

namespace Visit

variable {w : Walk σ} {a b c : Visit σ} {s s' : Progress} {n n' : Machine σ} {ts us : List Tensor}
  {e : Expr} {es : List Expr} {i : Nat}

/-- The tensors were made by a visit that this one leads to. -/
def MakesInside (w : Walk σ) (a : Visit σ) (i : Nat) (ts : List Tensor) : Prop :=
  ∃ b, a.Leads w b ∧ b.Makes w i ts

/-- The tensors were made while several expressions are visited. -/
def MakesAmong (w : Walk σ) (s : Progress) (es : List Expr) (n : Machine σ) (i : Nat)
    (ts : List Tensor) : Prop :=
  ∃ before e after us s₁ n₁, es = before ++ e :: after ∧
    w.visitAll s before n = (.ok (us, s₁), n₁) ∧ Makes w ⟨s₁, n₁, e⟩ i ts

/-- What was kept is what a visit ends with, and nothing else is done. -/
theorem ends_of_lookup (h : a.progress.memo.lookup a.node.id = some ts) :
    a.Ends w ts a.progress a.machine := by
  rw [Ends, w.visit_of_lookup h]
  rfl

/-- What a node is lowered to is kept from now on. -/
theorem Missed.ends (hmiss : a.Missed)
    (h : w.lowerNode a.progress a.node a.machine = (.ok (ts, s), n)) :
    a.Ends w ts (s.remember a.node.id ts) n := by
  rw [Ends, w.visit_of_lookup_none hmiss]
  exact bind_eq_ok_iff.mpr ⟨(ts, s), n, h, rfl⟩

/-- A visit leads to that of the first part. -/
theorem Leads.first (hmiss : a.Missed) (hparts : a.node.parts = e :: es) :
    a.Leads w ⟨a.progress, a.machine, e⟩ := by
  have hparts : a.node.parts = [] ++ e :: es := hparts
  exact .part hmiss hparts rfl

private theorem MakesInside.makes (h : a.MakesInside w i ts) : a.Makes w i ts := by
  obtain ⟨b, hlead, c, hreach, hc⟩ := h
  exact ⟨c, .head hlead hreach, hc⟩

private theorem Leads.makes (h : a.Leads w b) (hb : b.Makes w i ts) : a.Makes w i ts :=
  MakesInside.makes ⟨b, h, hb⟩

/-- What is made among the first parts is made inside. -/
private theorem MakesAmong.inside {before after : List Expr}
    (h : MakesAmong w a.progress before a.machine i ts) (hmiss : a.Missed)
    (hparts : a.node.parts = before ++ after) : a.MakesInside w i ts := by
  obtain ⟨before', e, after', us, s₁, n₁, rfl, hbefore, hmade⟩ := h
  have hall : a.node.parts = before' ++ e :: (after' ++ after) := by
    rw [hparts, List.append_assoc, List.cons_append]
  exact ⟨⟨s₁, n₁, e⟩, .part hmiss hall hbefore, hmade⟩

/-- **What is kept when a visit has ended was kept before, or a visit has made it.** -/
theorem visitRule_grows (w : Walk σ) : w.VisitRule
    (fun s e n ts s' _ => s.Grows s' (Makes w ⟨s, n, e⟩) ∧ s'.memo.lookup e.id = some ts)
    (fun s e n _ s' _ => s.memo.lookup e.id = none → s.Grows s' (MakesInside w ⟨s, n, e⟩))
    (fun s es n _ s' _ => s.Grows s' (MakesAmong w s es n)) where
  hit h := ⟨.of_eq rfl, h⟩
  leave {s s' e n n' ts} hmiss hrun hnode := by
    have hgrows := hnode hmiss
    refine ⟨⟨fun i us hi => ?_, fun i us hi => ?_⟩, by rw [Progress.lookup_remember, if_pos rfl]⟩
    · have hne : i ≠ e.id := by
        rintro rfl
        exact nomatch hmiss.symm.trans hi
      rw [Progress.lookup_remember, if_neg hne]
      exact hgrows.keeps i us hi
    · rw [Progress.lookup_remember] at hi
      split at hi
      · next heq =>
        obtain rfl := Option.some.inj hi
        exact Or.inr ⟨⟨s, n, e⟩, .refl, hmiss, heq.symm, _, n', hrun⟩
      · exact (hgrows.new i us hi).imp id MakesInside.makes
  var _ _ _ _ := .of_eq rfl
  const _ _ _ _ _ := .of_eq rfl
  call {s s₁ s' n n₁ n' inputs ts} id op attrs args type hargs hgrows hfinish hmiss := by
    have hinside := hgrows.imp fun i ts h =>
      MakesAmong.inside (a := ⟨s, n, .call id op attrs args type⟩) h hmiss
        (List.append_nil args).symm
    exact hinside.trans (.of_eq (Walk.finishCall_tables hfinish).1)
  tuple {s s' n n' ts} id fields _ hgrows hmiss := hgrows.imp fun i ts h =>
    MakesAmong.inside (a := ⟨s, n, .tuple id fields⟩) h hmiss (List.append_nil fields).symm
  proj {s s' n n' us ts} id i e _ hgrows _ hmiss := hgrows.1.imp fun j ts h =>
    ⟨⟨s, n, e⟩, .first hmiss rfl, h⟩
  letIn {s s₁ s' n n₁ n' us ts} id v value body hvalue hgrows _ hgrows' hmiss := by
    have hfirst := hgrows.1.imp fun i ts h =>
      (⟨⟨s, n, value⟩, .first hmiss rfl, h⟩ :
        MakesInside w ⟨s, n, .letIn id v value body⟩ i ts)
    have hbound : s₁.Grows (s₁.bind v us) (MakesInside w ⟨s, n, .letIn id v value body⟩) :=
      .of_eq rfl
    have hsecond := hgrows'.1.imp fun i ts h =>
      (⟨⟨s₁.bind v us, n₁, body⟩, .body hmiss rfl hvalue, h⟩ :
        MakesInside w ⟨s, n, .letIn id v value body⟩ i ts)
    exact (hfirst.trans hbound).trans hsecond
  nil := .of_eq rfl
  cons {s s₁ s' n n₁ n' ts us} e es hfirst hgrows _ hgrows' := by
    have hhead := hgrows.1.imp fun i ts h =>
      (⟨[], e, es, [], s, n, rfl, rfl, h⟩ : MakesAmong w s (e :: es) n i ts)
    refine hhead.trans (hgrows'.imp ?_)
    rintro i vs ⟨before, d, after, us', s₂, n₂, rfl, hbefore, hmade⟩
    exact ⟨e :: before, d, after, ts ++ us', s₂, n₂, rfl,
      Walk.visitAll_cons_iff.mpr ⟨ts, s₁, n₁, us', hfirst, hbefore, rfl⟩, hmade⟩

private theorem grows_of_visit (h : w.visit s e n = (.ok (ts, s'), n')) :
    s.Grows s' (Makes w ⟨s, n, e⟩) :=
  ((visitRule_grows w).visit h).1

private theorem Ends.lookup (h : a.Ends w ts s n) : s.memo.lookup a.node.id = some ts :=
  ((visitRule_grows w).visit h).2

private theorem grows_of_visitAll (h : w.visitAll s es n = (.ok (ts, s'), n')) :
    s.Grows s' (MakesAmong w s es n) :=
  (visitRule_grows w).visitAll es h

end Visit

/-! ### From a visit to those it leads to -/

namespace Visit

variable {w : Walk σ} {a b c r : Visit σ} {s s' : Progress} {n n' : Machine σ}
  {ts us : List Tensor} {k : Catalogue}

/-- Only a visit that finds nothing remembered leads to others. -/
theorem Leads.missed (h : a.Leads w b) : a.Missed := by
  cases h with
  | part hmiss | body hmiss => exact hmiss

private theorem Leads.within (h : a.Leads w b) : b.node.Within a.node := by
  cases h with
  | part _ hparts =>
    exact Expr.within_of_mem_parts (hparts ▸ List.mem_append_right _ List.mem_cons_self)
  | body _ hnode =>
    rw [hnode]
    exact .letBody _ _ _ (.refl _)

private theorem Leads.sizeOf_lt (h : a.Leads w b) : sizeOf b.node < sizeOf a.node := by
  cases h with
  | part _ hparts =>
    exact Expr.sizeOf_lt_of_mem_parts (hparts ▸ List.mem_append_right _ List.mem_cons_self)
  | @body id v value body us s n _ hnode =>
    change sizeOf body < sizeOf a.node
    rw [hnode, Expr.letIn.sizeOf_spec]
    omega

/-- A visit reaches parts of its node. -/
theorem Reaches.within (h : a.Reaches w b) : b.node.Within a.node := by
  induction h with
  | refl => exact .refl _
  | tail _ hlead ih => exact hlead.within.trans ih

/-- Up to a visit of a part, only parts were lowered. -/
theorem Leads.grows (h : a.Leads w b) : a.progress.Grows b.progress (a.Makes w) := by
  cases h with
  | part hmiss hparts hrun =>
    exact (grows_of_visitAll hrun).imp fun i ts hmade => (hmade.inside hmiss hparts).makes
  | @body id v value body us s n hmiss hnode hrun =>
    have hvalue : a.Leads w ⟨a.progress, a.machine, value⟩ :=
      .first hmiss (congrArg Expr.parts hnode)
    have hgrows := (grows_of_visit hrun).imp fun i ts hmade => hvalue.makes hmade
    exact hgrows.trans (.of_eq rfl)

/-- Until a visit is reached, what is remembered grows by what was made. -/
theorem Reaches.grows (h : a.Reaches w b) : a.progress.Grows b.progress (a.Makes w) := by
  induction h using Relation.ReflTransGen.head_induction_on with
  | refl => exact .of_eq rfl
  | head hlead _ ih => exact hlead.grows.trans (ih.imp fun i ts hmade => hlead.makes hmade)

/-- A node is not lowered while its parts are. -/
private theorem lookup_of_lowerNode (hk : a.node.In k) (hmiss : a.Missed)
    (hrun : w.lowerNode a.progress a.node a.machine = (.ok (ts, s), n)) :
    s.memo.lookup a.node.id = none := by
  by_contra hne
  obtain ⟨us, hus⟩ := Option.ne_none_iff_exists'.mp hne
  obtain hold | ⟨b, hlead, c, hreach, -, hid, -⟩ :=
    ((visitRule_grows w).lowerNode a.node hrun hmiss).new _ us hus
  · exact nomatch hmiss.symm.trans hold
  · -- it would be a part of itself
    have hin := (hreach.within.trans hlead.within).inCatalogue hk
    have hsame : c.node = a.node := by rw [← hin.node, ← hk.node, hid]
    have hle : sizeOf c.node ≤ sizeOf b.node := hreach.within.sizeOf_le
    have hlt : sizeOf b.node < sizeOf a.node := hlead.sizeOf_lt
    rw [hsame] at hle
    omega

/-- When a node is left, it is the last one that is kept. -/
theorem Ends.exists_lowerNode (hk : a.node.In k) (hmiss : a.Missed) (h : a.Ends w ts s n) :
    ∃ s₁, w.lowerNode a.progress a.node a.machine = (.ok (ts, s₁), n) ∧ s₁.Keeps s := by
  have hrun : w.visit a.progress a.node a.machine = (.ok (ts, s), n) := h
  rw [w.visit_of_lookup_none hmiss] at hrun
  obtain ⟨⟨us, s₁⟩, n₁, hlower, hend⟩ := bind_eq_ok_iff.mp hrun
  obtain ⟨rfl, rfl, rfl⟩ := pure_pair_eq_ok_iff.mp hend
  refine ⟨s₁, hlower, fun i vs hi => ?_⟩
  have hne : i ≠ a.node.id := by
    rintro rfl
    exact nomatch (lookup_of_lowerNode hk hmiss hlower).symm.trans hi
  rw [Progress.lookup_remember, if_neg hne]
  exact hi

/-- To lower a node, its parts are visited first. -/
private theorem visitRule_parts (w : Walk σ) : w.VisitRule (fun _ _ _ _ _ _ => True)
    (fun s e n _ s' _ => ∃ us s₁ n₁, w.visitAll s e.parts n = (.ok (us, s₁), n₁) ∧ s₁.Keeps s')
    (fun _ _ _ _ _ _ => True) where
  hit _ := trivial
  leave _ _ _ := trivial
  var _ _ _ := ⟨_, _, _, rfl, .refl _⟩
  const _ _ _ _ := ⟨_, _, _, rfl, .refl _⟩
  call _ _ _ _ _ hargs _ hfinish := ⟨_, _, _, hargs, .of_eq (Walk.finishCall_tables hfinish).1⟩
  tuple _ _ hfields _ := ⟨_, _, _, hfields, .refl _⟩
  proj _ _ _ hvisit _ _ := ⟨_, _, _, Walk.visitAll_singleton hvisit, .refl _⟩
  letIn _ _ _ _ hvalue _ hbody _ :=
    ⟨_, _, _, Walk.visitAll_singleton hvalue, (grows_of_visit hbody).keeps⟩
  nil := trivial
  cons _ _ _ _ _ _ := trivial

/-- The first visit has ended before the second one begins, and what it has kept is still kept. -/
def Precedes (w : Walk σ) (a b : Visit σ) : Prop :=
  ∃ ts s n, a.Ends w ts s n ∧ s.Keeps b.progress

/-- If several expressions were visited, each of them was. -/
private theorem exists_ends_of_visitAll {s₁ : Progress} {n₁ : Machine σ} {before after : List Expr}
    {e : Expr} (h : w.visitAll s (before ++ e :: after) n = (.ok (ts, s'), n'))
    (hbefore : w.visitAll s before n = (.ok (us, s₁), n₁)) :
    ∃ vs s₂ n₂, Ends w ⟨s₁, n₁, e⟩ vs s₂ n₂ ∧ s₂.Keeps s' := by
  obtain ⟨us', s₂, n₂, vs, hbefore', hrest, -⟩ := Walk.visitAll_append_iff.mp h
  rw [hbefore] at hbefore'
  cases hbefore'
  obtain ⟨vs, s₂, n₂, vs', he, hafter, -⟩ := Walk.visitAll_cons_iff.mp hrest
  exact ⟨vs, s₂, n₂, he, (grows_of_visitAll hafter).keeps⟩

/-- A visit that ends well leads to visits that end well. -/
private theorem Leads.exists_ends (hk : a.node.In k) (hlead : a.Leads w b) (h : a.Ends w ts s n) :
    ∃ us s' n', b.Ends w us s' n' ∧ s'.Keeps s := by
  obtain ⟨s₁, hlower, hkeeps⟩ := h.exists_lowerNode hk hlead.missed
  cases hlead with
  | part _ hparts hbefore =>
    obtain ⟨us, s₂, n₂, hall, hkeeps'⟩ := (visitRule_parts w).lowerNode _ hlower
    rw [hparts] at hall
    obtain ⟨vs, s₃, n₃, hends, hkeeps₃⟩ := exists_ends_of_visitAll hall hbefore
    exact ⟨vs, s₃, n₃, hends, (hkeeps₃.trans hkeeps').trans hkeeps⟩
  | body _ hnode hvalue =>
    rw [hnode] at hlower
    obtain ⟨⟨us, s₂⟩, n₂, hvalue', hbody⟩ := bind_eq_ok_iff.mp hlower
    rw [hvalue] at hvalue'
    cases hvalue'
    exact ⟨ts, s₁, n, hbody, hkeeps⟩

private theorem Reaches.exists_ends (hk : a.node.In k) (hreach : a.Reaches w b)
    (h : a.Ends w ts s n) : ∃ us s' n', b.Ends w us s' n' ∧ s'.Keeps s := by
  induction hreach using Relation.ReflTransGen.head_induction_on generalizing ts s n with
  | refl => exact ⟨ts, s, n, h, .refl s⟩
  | head hlead _ ih =>
    obtain ⟨us, s₁, n₁, hends, hkeeps⟩ := hlead.exists_ends hk h
    obtain ⟨vs, s', n', hends', hkeeps'⟩ := ih (hlead.within.inCatalogue hk) hends
    exact ⟨vs, s', n', hends', hkeeps'.trans hkeeps⟩

/-- Of two expressions that are visited from left to right, the one is done before the other. -/
private theorem eq_or_precedes_of_append {before before' after after' : List Expr} {e e' : Expr}
    {us' : List Tensor} {s₁ s₁' : Progress} {n₁ n₁' : Machine σ}
    (h : before ++ e :: after = before' ++ e' :: after')
    (hrun : w.visitAll s before n = (.ok (us, s₁), n₁))
    (hrun' : w.visitAll s before' n = (.ok (us', s₁'), n₁')) :
    (⟨s₁, n₁, e⟩ : Visit σ) = ⟨s₁', n₁', e'⟩ ∨ Precedes w ⟨s₁, n₁, e⟩ ⟨s₁', n₁', e'⟩ ∨
      Precedes w ⟨s₁', n₁', e'⟩ ⟨s₁, n₁, e⟩ := by
  induction before generalizing before' s n us us' with
  | nil =>
    cases hrun
    cases before' with
    | nil =>
      cases hrun'
      exact Or.inl (congrArg _ (List.cons.inj h).1)
    | cons d before' =>
      obtain ⟨rfl, -⟩ := List.cons.inj h
      obtain ⟨vs, s₂, n₂, vs', he, hrest, -⟩ := Walk.visitAll_cons_iff.mp hrun'
      exact Or.inr (Or.inl ⟨vs, s₂, n₂, he, (grows_of_visitAll hrest).keeps⟩)
  | cons d before ih =>
    obtain ⟨vs, s₂, n₂, vs', hd, hrest, -⟩ := Walk.visitAll_cons_iff.mp hrun
    cases before' with
    | nil =>
      cases hrun'
      obtain ⟨rfl, -⟩ := List.cons.inj h
      exact Or.inr (Or.inr ⟨vs, s₂, n₂, hd, (grows_of_visitAll hrest).keeps⟩)
    | cons d' before' =>
      obtain ⟨rfl, htail⟩ := List.cons.inj h
      obtain ⟨_, _, _, us₁, hd', hrest', -⟩ := Walk.visitAll_cons_iff.mp hrun'
      rw [hd] at hd'
      cases hd'
      exact ih htail hrest hrest'

/-- What is visited before a local definition is bound is its value. -/
private theorem precedes_of_parts {id : Nat} {v : Var} {value body e : Expr}
    {before after : List Expr} {s₁ s₂ : Progress} {n₁ n₂ : Machine σ} {us' : List Tensor}
    (hparts : a.node.parts = before ++ e :: after)
    (hrun : w.visitAll a.progress before a.machine = (.ok (us, s₁), n₁))
    (hnode : a.node = .letIn id v value body)
    (hvalue : w.visit a.progress value a.machine = (.ok (us', s₂), n₂)) :
    Precedes w ⟨s₁, n₁, e⟩ ⟨s₂.bind v us', n₂, body⟩ := by
  rw [hnode] at hparts
  obtain ⟨rfl, hlast⟩ | ⟨-, hnil⟩ := List.singleton_eq_append_iff.mp hparts
  · obtain ⟨rfl, -⟩ := List.cons.inj hlast
    cases hrun
    exact ⟨us', s₂, n₂, hvalue, .of_eq rfl⟩
  · cases hnil

/-- Of two visits that one leads to, the one has ended before the other begins. -/
private theorem Leads.eq_or_precedes (hb : a.Leads w b) (hc : a.Leads w c) :
    b = c ∨ b.Precedes w c ∨ c.Precedes w b := by
  cases hb with
  | part _ hparts hrun =>
    cases hc with
    | part _ hparts' hrun' =>
      rw [hparts] at hparts'
      exact eq_or_precedes_of_append hparts' hrun hrun'
    | body _ hnode hvalue => exact Or.inr (Or.inl (precedes_of_parts hparts hrun hnode hvalue))
  | body _ hnode hvalue =>
    cases hc with
    | part _ hparts hrun => exact Or.inr (Or.inr (precedes_of_parts hparts hrun hnode hvalue))
    | body _ hnode' hvalue' =>
      obtain ⟨-, rfl, rfl, rfl⟩ := Expr.letIn.inj (hnode.symm.trans hnode')
      rw [hvalue] at hvalue'
      cases hvalue'
      exact Or.inl rfl

/-- If a visit precedes another one, then what it reaches precedes what the other one reaches. -/
theorem Precedes.of_reaches (hk : b.node.In k) (h : b.Precedes w c) {b' c' : Visit σ}
    (hb : b.Reaches w b') (hc : c.Reaches w c') : b'.Precedes w c' := by
  obtain ⟨ts, s, n, hends, hkeeps⟩ := h
  obtain ⟨us, s', n', hends', hkeeps'⟩ := hb.exists_ends hk hends
  exact ⟨us, s', n', hends', (hkeeps'.trans hkeeps).trans hc.grows.keeps⟩

/-- **Of two visits one leads to the other, or one has ended before the other begins.** -/
theorem reaches_or_precedes (hk : a.node.In k) (hb : a.Reaches w b) (hc : a.Reaches w c) :
    b.Reaches w c ∨ c.Reaches w b ∨ b.Precedes w c ∨ c.Precedes w b := by
  induction hb using Relation.ReflTransGen.head_induction_on with
  | refl => exact Or.inl hc
  | @head a b' hlead hrest ih =>
    obtain rfl | ⟨c', hlead', hrest'⟩ := Relation.ReflTransGen.cases_head hc
    · exact Or.inr (Or.inl (.head hlead hrest))
    · have hkb := hlead.within.inCatalogue hk
      have hkc := hlead'.within.inCatalogue hk
      obtain rfl | h | h := hlead.eq_or_precedes hlead'
      · exact ih hkb hrest'
      · exact Or.inr (Or.inr (Or.inl (h.of_reaches hkb hrest hrest')))
      · exact Or.inr (Or.inr (Or.inr (h.of_reaches hkc hrest' hrest)))

/-- A visit of a node that leads to a visit of the same node is that visit. -/
private theorem Reaches.eq_of_node_eq (h : a.Reaches w b) (hnode : a.node = b.node) : a = b := by
  obtain rfl | ⟨c, hlead, hrest⟩ := Relation.ReflTransGen.cases_head h
  · rfl
  · have hle : sizeOf b.node ≤ sizeOf c.node := (Reaches.within hrest).sizeOf_le
    have hlt : sizeOf c.node < sizeOf a.node := hlead.sizeOf_lt
    rw [hnode] at hlt
    omega

/-- A visit that has ended is repeated with what was kept. -/
private theorem Precedes.eq_of_node_eq (h : b.Precedes w c) (hnode : b.node = c.node)
    (hb : b.Ends w ts s n) (hc : c.Ends w us s' n') : us = ts := by
  obtain ⟨vs, s₁, n₁, hends, hkeeps⟩ := h
  obtain ⟨heq, -⟩ := Prod.mk.inj (hends.symm.trans hb)
  obtain ⟨rfl, -⟩ := Prod.mk.inj (Outcome.ok.inj heq)
  have hkept := hkeeps _ _ hends.lookup
  rw [hnode] at hkept
  have hrun : w.visit c.progress c.node c.machine = (.ok (us, s'), n') := hc
  rw [w.visit_of_lookup hkept] at hrun
  exact (pure_pair_eq_ok_iff.mp hrun).1.symm

end Visit

namespace Walk

variable {w : Walk σ} {f : Function} {m : Machine σ} {a b : Visit σ} {e : Expr}
  {ts us : List Tensor}

/-- A visit to which a visit of the walk leads is one of the walk. -/
theorem Visits.step (ha : w.Visits f m a) (h : a.Leads w b) : w.Visits f m b := by
  obtain ⟨inputs, s, n, hparams, hreach⟩ := ha
  exact ⟨inputs, s, n, hparams, .tail hreach h⟩

/-- A walk visits nodes of the body. -/
theorem Visits.within (ha : w.Visits f m a) : a.node.Within f.body := by
  obtain ⟨inputs, s, n, -, hreach⟩ := ha
  exact hreach.within

/-- **An expression never yields different tensors.** -/
theorem Yields.unique (hf : f.Coherent) (h : w.Yields f m e ts) (h' : w.Yields f m e us) :
    ts = us := by
  obtain ⟨k, hk⟩ := hf
  obtain ⟨b, s, n, ⟨inputs, s₀, n₀, hparams, hb⟩, rfl, hbends⟩ := h
  obtain ⟨c, s', n', ⟨inputs', s₀', n₀', hparams', hc⟩, hnode, hcends⟩ := h'
  rw [hparams] at hparams'
  cases hparams'
  have hsame {b c : Visit σ} {ts us : List Tensor} {s s' : Progress} {n n' : Machine σ}
      (hreach : b.Reaches w c) (hnode : b.node = c.node) (hb : b.Ends w ts s n)
      (hc : c.Ends w us s' n') : ts = us := by
    obtain rfl := hreach.eq_of_node_eq hnode
    obtain ⟨heq, -⟩ := Prod.mk.inj (hb.symm.trans hc)
    exact (Prod.mk.inj (Outcome.ok.inj heq)).1
  obtain h | h | h | h := Visit.reaches_or_precedes hk hb hc
  · exact hsame h hnode.symm hbends hcends
  · exact (hsame h hnode hcends hbends).symm
  · exact (h.eq_of_node_eq hnode.symm hbends hcends).symm
  · exact h.eq_of_node_eq hnode hcends hbends

/-- **What an expression yields was made for it**, by a visit that did not find it among what was
kept. -/
theorem Yields.exists_missed (hf : f.Coherent) (h : w.Yields f m e ts) :
    ∃ a s n, w.Visits f m a ∧ a.Missed ∧ a.node = e ∧ a.Ends w ts s n := by
  obtain ⟨k, hk⟩ := hf
  obtain ⟨a, s, n, ⟨inputs, s₀, n₀, hparams, ha⟩, rfl, hends⟩ := h
  cases hmemo : a.progress.memo.lookup a.node.id with
  | none => exact ⟨a, s, n, ⟨inputs, s₀, n₀, hparams, ha⟩, hmemo, rfl, hends⟩
  | some us =>
    have hrun : w.visit a.progress a.node a.machine = (.ok (ts, s), n) := hends
    rw [w.visit_of_lookup hmemo] at hrun
    obtain ⟨rfl, -, -⟩ := pure_pair_eq_ok_iff.mp hrun
    -- nothing was kept when the body was entered
    have hempty : s₀.memo.lookup a.node.id = none := by
      rw [(bindParams_memo hparams).1]
      rfl
    obtain hold | ⟨b, hreach, hmiss, hid, s₁, n₁, hends'⟩ := ha.grows.new _ us hmemo
    · exact nomatch hempty.symm.trans hold
    · have hnode : b.node = a.node := by
        rw [← (hreach.within.inCatalogue hk).node, ← (ha.within.inCatalogue hk).node, hid]
      exact ⟨b, s₁, n₁, ⟨inputs, s₀, n₀, hparams, hreach⟩, hmiss, hnode, hends'⟩

end Walk

end TensorLowering
