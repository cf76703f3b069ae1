import TensorLowering.Proofs.Graph.CallOrder
import TensorLowering.Proofs.Lowering.Tree

/-!
# When tensors can be used again

The walk that lowers a function does not lower a node again that it meets a second time, though the
tree has a second copy of it there. That is sound if expanding the copy would have given tensors
that look like those of the first one, whatever the environment is by then. `Reusable` says so for
the tensors that are kept for an expression; it needs no more of the environment than that the
variables that are used look there as they do in the table of the walk.

The first run shows it (`Reusable.of_run`): any later one is side by side with it. The table may
only grow by variables that the expression does not use (`Widens`).

Of the copies of a call only the first one is lowered by the walk (`firstCopies`).
-/

namespace TensorLowering

open Encoding Setting

variable {σ : Type}

/-! ### First copies -/

/-- Note a copy of a call, unless a copy of the same call was noted before. -/
def noteCopy (first : List CallCopy) (c : CallCopy) : List CallCopy :=
  if c.node ∈ first.map CallCopy.node then first else first ++ [c]

/-- The first copy of every call, in order. -/
def firstCopies (copies : List CallCopy) : List CallCopy := copies.foldl noteCopy []

theorem subset_noteCopy (first : List CallCopy) (c : CallCopy) : first ⊆ noteCopy first c :=
  (prefix_noteBy CallCopy.node first c).subset

/-- Copies that were noted stay noted. -/
theorem subset_foldl_noteCopy (copies first : List CallCopy) :
    first ⊆ copies.foldl noteCopy first :=
  (prefix_noteAllBy CallCopy.node copies first).subset

/-- Nothing is noted for calls all of which were noted before. -/
theorem foldl_noteCopy_of_mem {copies first : List CallCopy}
    (h : ∀ c ∈ copies, c.node ∈ first.map CallCopy.node) :
    copies.foldl noteCopy first = first :=
  noteAllBy_of_mem h

/-- One of the copies that were noted is a copy of the same call, and was lowered to the same. -/
def CallCopy.IsNoted (old : Nat) (params : List Nat) (first : List CallCopy) (c : CallCopy) :
    Prop :=
  ∃ c' ∈ first, c'.Looks old params params c

/-- More copies may have been noted. -/
theorem CallCopy.IsNoted.mono {old : Nat} {params : List Nat} {first first' : List CallCopy}
    (hfirst : first ⊆ first') {c : CallCopy} (h : c.IsNoted old params first) :
    c.IsNoted old params first' := by
  obtain ⟨c', hc', hlooks⟩ := h
  exact ⟨c', hfirst hc', hlooks⟩

/-! ### Tables that grow -/

/-- To the table of variables others were added, all of which the function binds. -/
structure Widens (f : Function) (table table' : List (Nat × List Tensor)) : Prop where
  keeps : ∀ x ts, table.lookup x = some ts → table'.lookup x = some ts
  binds : ∀ x, table'.lookup x ≠ none → table.lookup x ≠ none ∨ f.Binds x

namespace Widens

variable {f : Function} {table table' table'' : List (Nat × List Tensor)}

theorem refl (table : List (Nat × List Tensor)) : Widens f table table :=
  ⟨fun _ _ hx => hx, fun _ hx => Or.inl hx⟩

theorem trans (h : Widens f table table') (h' : Widens f table' table'') :
    Widens f table table'' := by
  refine ⟨fun x ts hx => h'.keeps x ts (h.keeps x ts hx), fun x hx => ?_⟩
  obtain hx | hx := h'.binds x hx
  · exact h.binds x hx
  · exact Or.inr hx

/-- A new variable that the function binds widens the table. -/
theorem cons {x : Nat} (hx : table.lookup x = none) (hbinds : f.Binds x) (ts : List Tensor) :
    Widens f table ((x, ts) :: table) := by
  constructor
  · intro y us hy
    have hne : y ≠ x := by
      rintro rfl
      exact nomatch hx.symm.trans hy
    rw [lookup_cons_ite, if_neg hne]
    exact hy
  · intro y hy
    rw [lookup_cons_ite] at hy
    split at hy
    · next hyx => exact Or.inr (hyx ▸ hbinds)
    · exact Or.inl hy

/-- Nothing changes for a variable that is in the table already or is never bound. -/
theorem lookup_eq (h : Widens f table table') {x : Nat}
    (hx : f.Binds x → table.lookup x ≠ none) : table'.lookup x = table.lookup x := by
  cases htable : table.lookup x with
  | some ts => exact h.keeps x ts htable
  | none =>
    by_contra hne
    obtain hbound | hbinds := h.binds x hne
    · exact hbound htable
    · exact hx hbinds htable

end Widens

/-! ### Reuse -/

/-- Tensors that were found for an expression can be used again in place of another expansion of
it, under any correspondence that `w` becomes. Its calls were all noted. -/
structure Reusable (v : Walk σ) (k : Setting σ) (old : Nat) (f : Function)
    (table : List (Nat × List Tensor)) (first : List CallCopy) (w : Correspondence) (e : Expr)
    (ts : List Tensor) : Prop where
  inScope : ∀ x, e.Uses x → f.Binds x → table.lookup x ≠ none
  again : ∀ w' env, w.Grows w' → w'.Fixed old →
    (∀ x, e.Uses x → Option.Rel w'.SameAll (table.lookup x) (env.lookup x)) →
      k.SideBySideIn (Correspondence.Fixed old) w'
        (fun w ts r => w.SameAll ts r.1 ∧
          ∀ c ∈ r.2, c.IsNoted old w.right.params first)
        (pure ts) (v.expand env e)

section

variable {v : Walk σ} {k : Setting σ} {old : Nat} {f : Function}
  {table table' env : List (Nat × List Tensor)} {first first' : List CallCopy}
  {w w' : Correspondence} {e : Expr} {ts us : List Tensor}

/-- What can be used again can be so later. -/
theorem Reusable.later (hw : w.Grows w') (htable : Widens f table table') (hfirst : first ⊆ first')
    (h : Reusable v k old f table first w e ts) : Reusable v k old f table' first' w' e ts := by
  have hlookup (x : Nat) (hx : e.Uses x) : table'.lookup x = table.lookup x :=
    htable.lookup_eq (h.inScope x hx)
  constructor
  · intro x hx hbinds
    rw [hlookup x hx]
    exact h.inScope x hx hbinds
  · intro w'' env hw' hfixed henv
    have henv' (x : Nat) (hx : e.Uses x) :
        Option.Rel w''.SameAll (table.lookup x) (env.lookup x) := by
      rw [← hlookup x hx]
      exact henv x hx
    refine (h.again w'' env (hw.trans hw') hfixed henv').imp fun z ts r _ hr => ?_
    exact ⟨hr.1, hr.2.1, fun c hc => (hr.2.2 c hc).mono hfirst⟩

/-- A machine of the setting on which numbers are new from the register on. -/
structure Setting.At (k : Setting σ) (r : Register) (m : Machine σ) : Prop where
  own : m.own = k.own
  oracle : m.tuning.oracle = k.oracle
  next : m.next = r.next

/-- An action that ran side by side with another one has run. -/
theorem Setting.SideBySide.ran {α β : Type} {P : Correspondence → α → β → Prop} {x : Action σ α}
    {y : Action σ β} (h : k.SideBySide w P x y) :
    k.SideBySide w (fun w' a b => P w' a b ∧ ∃ m n, k.At w.right m ∧ y m = (.ok b, n)) x y := by
  intro m m' hm
  have hends := h m m' hm
  generalize x m = r at hends
  generalize hy : y m' = s at hends
  cases hends with
  | ok hgrows hholds hp =>
    exact Ends.ok hgrows hholds ⟨hp, m', _, ⟨hm.own', hm.oracle', hm.next'⟩, hy⟩
  | fault e n n' => exact Ends.fault e n n'
  | panic n n' => exact Ends.panic n n'
  | stalled n n' => exact Ends.stalled n n'

namespace Correspondence.Fixed

/-- What looks like one thing on the left looks alike on the right, at two moments. -/
private theorem same_right (hw : w.Fixed old) (hw' : w'.Fixed old)
    (hparams : w'.left.params = w.left.params) {t u u' : Tensor} (h : w.Same t u)
    (h' : w'.Same t u') : (fixed old w.right w'.right hw.right hw'.right).Same u u' := by
  have hlooks := hw'.looks h'
  rw [hparams] at hlooks
  exact ⟨h.right, h'.right, trivial, (hw.looks h).symm.trans hlooks⟩

private theorem sameAll_right (hw : w.Fixed old) (hw' : w'.Fixed old)
    (hparams : w'.left.params = w.left.params) {ts us us' : List Tensor} (h : w.SameAll ts us)
    (h' : w'.SameAll ts us') :
    (fixed old w.right w'.right hw.right hw'.right).SameAll us us' := by
  have hsame (u t u' : Tensor) (h : w.Same t u) (h' : w'.Same t u') :=
    hw.same_right hw' hparams h h'
  exact forall₂_trans hsame h.flip h'

private theorem optionRel_right (hw : w.Fixed old) (hw' : w'.Fixed old)
    (hparams : w'.left.params = w.left.params) {o o₁ o₂ : Option (List Tensor)}
    (h : Option.Rel w.SameAll o o₁) (h' : Option.Rel w'.SameAll o o₂) :
    Option.Rel (fixed old w.right w'.right hw.right hw'.right).SameAll o₁ o₂ := by
  cases h with
  | none =>
    cases h' with
    | none => exact Option.Rel.none
  | some hts =>
    cases h' with
    | some hts' => exact Option.Rel.some (hw.sameAll_right hw' hparams hts hts')

end Correspondence.Fixed

private theorem exists_of_mem_right {α β : Type} {R : α → β → Prop} {as : List α} {bs : List β}
    (h : List.Forall₂ R as bs) {b : β} (hb : b ∈ bs) : ∃ a ∈ as, R a b := by
  induction h with
  | nil => exact absurd hb List.not_mem_nil
  | @cons a b' as bs hab _ ih =>
    obtain rfl | hb := List.mem_cons.mp hb
    · exact ⟨a, List.mem_cons_self, hab⟩
    · obtain ⟨a', ha', hab'⟩ := ih hb
      exact ⟨a', List.mem_cons_of_mem a ha', hab'⟩

/-- **Tensors can be used again** that look like those of one expansion. -/
theorem Reusable.of_run (hv : v.collaborators.Pure k old) (hknown : f.Known)
    (hbelow : f.Below old) (hwithin : e.Within f.body) (hw : w.Fixed old)
    (hinScope : ∀ x, e.Uses x → f.Binds x → table.lookup x ≠ none)
    (henv : ∀ x, e.Uses x → Option.Rel w.SameAll (table.lookup x) (env.lookup x))
    {m n : Machine σ} (hm : k.At w.right m) {copies : List CallCopy}
    (hrun : v.expand env e m = (.ok (us, copies), n)) (hgrows : w.Grows w') (hw' : w'.Fixed old)
    (hsame : w'.SameAll ts us)
    (hnoted : ∀ c ∈ copies, c.IsNoted old w'.right.params first) :
    Reusable v k old f table first w' e ts := by
  refine ⟨hinScope, fun w₁ env₁ hw₁ hfixed₁ henv₁ m₁ m₁' hm₁ => ?_⟩
  have hgrows₁ := hgrows.trans hw₁
  -- the first expansion on the left, the later one on the right
  let z := Correspondence.fixed old w.right w₁.right hw.right hfixed₁.right
  have hz : z.Fixed old := Correspondence.fixed_fixed hw.right hfixed₁.right
  have hlooks (x : Nat) (hx : e.Uses x) : Option.Rel z.SameAll (env.lookup x) (env₁.lookup x) :=
    hw.optionRel_right hfixed₁ hgrows₁.left.params (henv x hx) (henv₁ x hx)
  have hboth : k.Holds z m m₁' := ⟨hm.own, hm₁.own', hm.oracle, hm₁.oracle', hm.next, hm₁.next'⟩
  have hends := Walk.sideBySide_expand hv hknown hbelow e hwithin hz hlooks m m₁' hboth
  rw [hrun] at hends
  change k.Ends w₁ _ (.ok ts, m₁) (v.expand env₁ e m₁')
  generalize v.expand env₁ e m₁' = r at hends ⊢
  cases hends with
  | @ok z' _ n' _ r hz' hn hexpanded =>
    obtain ⟨hfixed', hexpanded⟩ := hexpanded
    let w₂ := w₁.onto (Register.Grows.refl w₁.left) hz'.right
    have hw₂ : w₁.Grows w₂ := w₁.grows_onto (Register.Grows.refl w₁.left) hz'.right
    have hfixed₂ : w₂.Fixed old := hfixed₁.grows hw₂ rfl
    refine Ends.ok hw₂ ⟨hm₁.own, hn.own', hm₁.oracle, hn.oracle', hm₁.next, hn.next'⟩ ?_
    refine ⟨hfixed₂, ?_, ?_⟩
    · -- the tensors look like those of the first expansion, and these like those of the later one
      have htrans (t u u' : Tensor) (h : w'.Same t u) (h' : z'.Same u u') : w₂.Same t u' := by
        have hlooks : t.Looks old w'.left.params w'.right.params u := hw'.looks h
        have hlooks' : u.Looks old z'.left.params z'.right.params u' := hfixed'.looks h'
        rw [hz'.left.params] at hlooks'
        rw [hgrows.right.params] at hlooks
        have hboth := hlooks.trans hlooks'
        rw [← hw₁.left.params] at hboth
        exact hfixed₂.same (hw₁.left.made t h.left) h'.right hboth
      exact forall₂_trans htrans hsame hexpanded.same
    · -- a copy of the later expansion is one of the first, which was noted
      intro c' hc'
      obtain ⟨c, hc, hlooks⟩ := exists_of_mem_right hexpanded.copies hc'
      obtain ⟨c₀, hc₀, hlooks₀⟩ := hnoted c hc
      rw [hz'.left.params] at hlooks
      rw [hgrows.right.params] at hlooks₀
      have hparams : z'.right.params = w.right.params :=
        hz'.right.params.trans hgrows₁.right.params
      have hboth := hlooks₀.trans hlooks
      rw [← hparams] at hboth
      exact ⟨c₀, hc₀, hboth⟩

end

end TensorLowering
