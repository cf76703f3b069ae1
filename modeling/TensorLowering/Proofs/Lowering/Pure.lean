import TensorLowering.Proofs.Lowering.Choosing
import TensorLowering.Proofs.Lowering.Leaves

/-!
# Pure collaborators

Collaborators are *pure* (`Collaborators.Pure`) if what they do depends on nothing but what they are
asked and what they keep, which they leave as it is, and if they know a tensor only by what it shows
when it is unfolded. They make no symbolic variables. In terms of correspondences: they do alike
under those in which every symbolic variable corresponds to itself, and any two tensors may stand
for each other (`Correspondence.Fixed`). Then it does not matter how the terms of a sum are
ordered: the same guards are proved on both sides, since they are the same.

If no dimension in its type is unknown, a call makes no symbolic variables either. So with pure
collaborators it is lowered alike whenever its arguments look alike, and its shapes as well.
-/

namespace TensorLowering

open Setting

variable {σ : Type} {old : Nat}

/-! ### Correspondences that relate every symbolic variable to itself -/

/-- The symbolic variables that were there before correspond to themselves, and no others do. Any
two tensors may stand for each other. -/
structure Correspondence.Fixed (old : Nat) (w : Correspondence) : Prop where
  numbers : w.numbers = fun i j => i = j ∧ i.draw < old
  loose : w.Loose
  left : old ≤ w.left.next
  right : old ≤ w.right.next

namespace Correspondence

/-- The correspondence of two registers in which symbolic variables correspond to themselves. -/
abbrev fixed (old : Nat) (r r' : Register) (h : old ≤ r.next) (h' : old ≤ r'.next) :
    Correspondence :=
  .identical r r' (fun _ _ => True) h h'

variable {w : Correspondence} {r r' r'' : Register} {t t' t'' : Tensor}

/-- A correspondence that starts from old variables alone is fixed. -/
theorem fixed_fixed (h : old ≤ r.next) (h' : old ≤ r'.next) : (fixed old r r' h h').Fixed old :=
  ⟨rfl, fun _ _ => trivial, h, h'⟩

private theorem Fixed.onto (hw : w.Fixed old) (hl : w.left.Grows r) (hr : w.right.Grows r') :
    (w.onto hl hr).Fixed old :=
  ⟨hw.numbers, hw.loose, Nat.le_trans hw.left hl.next, Nat.le_trans hw.right hr.next⟩

/-- Making tensors makes no symbolic variables. -/
theorem Fixed.grows {w' : Correspondence} (hw : w.Fixed old) (h : w.Grows w')
    (hnumbers : w'.numbers = w.numbers) : w'.Fixed old :=
  ⟨hnumbers.trans hw.numbers, hw.loose.grows h, Nat.le_trans hw.left h.left.next,
    Nat.le_trans hw.right h.right.next⟩

private theorem Fixed.numbers_self (hw : w.Fixed old) {i : SymId} (hi : i.draw < old) :
    w.numbers i i := by
  rw [hw.numbers]
  exact ⟨rfl, hi⟩

/-- An old type corresponds to itself. -/
private theorem Fixed.alike (hw : w.Fixed old) {t : Ty} (ht : t.Below old) :
    Ty.Alike w.numbers t t :=
  Ty.Below.alike (fun _ hi => hw.numbers_self hi) t ht

/-- Expressions that correspond are the same, so the same is proved of them. -/
theorem decides_fixed (old : Nat) (e : IndexExpr) : Decides (Fixed old) e := by
  intro w e' hw h
  rw [hw.numbers] at h
  rw [h.eq_of_numbers fun _ _ hij => hij.1]

end Correspondence

/-- The tensors show the same when they are unfolded, and no symbolic variables but old ones. -/
abbrev Tensor.Looks (old : Nat) (params params' : List Nat) : Tensor → Tensor → Prop :=
  Tensor.Alike (fun i j => i = j ∧ i.draw < old) params params'

namespace Tensor.Looks

variable {params params' params'' : List Nat} {t t' t'' : Tensor}

/-- Tensors look the same both ways. -/
theorem symm (h : t.Looks old params params' t') : t'.Looks old params' params t :=
  Alike.symm (fun _ _ ⟨hij, hi⟩ => ⟨hij.symm, hij ▸ hi⟩) t t' h

/-- Tensors that look the same as one in the middle look the same. -/
theorem trans (h : t.Looks old params params' t') (h' : t'.Looks old params' params'' t'') :
    t.Looks old params params'' t'' :=
  Alike.trans (fun _ _ _ ⟨hij, hi⟩ ⟨hjl, _⟩ => ⟨hij.trans hjl, hi⟩) t t' t'' h h'

end Tensor.Looks

/-- Tensors that correspond look the same. -/
theorem Correspondence.Fixed.looks {w : Correspondence} (hw : w.Fixed old) {t t' : Tensor}
    (h : w.Same t t') : t.Looks old w.left.params w.right.params t' := by
  have halike := h.alike
  rwa [hw.numbers] at halike

/-- Tensors that were made on their sides are the same if they show the same. -/
theorem Correspondence.Fixed.same {w : Correspondence} (hw : w.Fixed old) {t t' : Tensor}
    (h : w.left.made t) (h' : w.right.made t')
    (hlooks : t.Looks old w.left.params w.right.params t') : w.Same t t' := by
  refine ⟨h, h', hw.loose t t', ?_⟩
  rw [hw.numbers]
  exact hlooks

/-! ### Known types -/

/-- Something that takes no numbers from the supply: it fails, or gives a value, with a property. -/
def TakesNone {α : Type} (P : α → Prop) (f : (Nat → Nat) → Nat → Except Fault (α × Nat)) : Prop :=
  (∃ e, ∀ lots n, f lots n = .error e) ∨ ∃ a, P a ∧ ∀ lots n, f lots n = .ok (a, n)

/-- Two actions that take no numbers take none one after the other. -/
theorem TakesNone.bind {α β : Type} {P : α → Prop} {Q : β → Prop}
    {f : (Nat → Nat) → Nat → Except Fault (α × Nat)}
    {g : α → (Nat → Nat) → Nat → Except Fault (β × Nat)}
    (hf : TakesNone P f) (hg : ∀ a, P a → TakesNone Q (g a)) :
    TakesNone Q fun lots n => f lots n >>= fun r => g r.1 lots r.2 := by
  obtain ⟨e, he⟩ | ⟨a, ha, hf⟩ := hf
  · refine Or.inl ⟨e, fun lots n => ?_⟩
    change (f lots n >>= _) = _
    rw [he]
    rfl
  · obtain ⟨e, he⟩ | ⟨b, hb, hg⟩ := hg a ha
    · refine Or.inl ⟨e, fun lots n => ?_⟩
      change (f lots n >>= _) = _
      rw [hf]
      exact he lots n
    · refine Or.inr ⟨b, hb, fun lots n => ?_⟩
      change (f lots n >>= _) = _
      rw [hf]
      exact hg lots n

theorem TakesNone.pure {α : Type} {P : α → Prop} {a : α} (h : P a) :
    TakesNone P fun _ n => .ok (a, n) :=
  Or.inr ⟨a, h, fun _ _ => rfl⟩

private theorem takesNone_normalizeShape {t : TensorType} (h : t.hasUnknown = false)
    (hb : t.Below old) :
    TakesNone (fun shape => ∀ e ∈ shape, e.Below old)
      fun lots n => normalizeShape n t.shape lots := by
  have hshape := normalizeShape_eq_knownShape h
  cases hknown : knownShape t.shape with
  | error e =>
    refine Or.inl ⟨e, fun lots n => ?_⟩
    dsimp only
    rw [hshape, hknown]
    rfl
  | ok shape =>
    refine Or.inr ⟨shape, knownShape_below hb hknown, fun lots n => ?_⟩
    dsimp only
    rw [hshape, hknown]
    rfl

private theorem TensorType.takesNone_normalize {t : TensorType} (h : t.hasUnknown = false)
    (hb : t.Below old) : TakesNone (TensorType.Below old) fun lots n => t.normalize lots n := by
  have hrest (shape : List IndexExpr) (hshape : ∀ e ∈ shape, e.Below old) :
      TakesNone (TensorType.Below old) fun _ n => .ok (⟨shape, t.dtype⟩, n) := .pure hshape
  exact (takesNone_normalizeShape h hb).bind hrest

mutual

/-- Where nothing is unknown in a type, nothing is in its tensors. -/
theorem Ty.hasUnknown_leaf {leaf : TensorType} : (t : Ty) → t.hasUnknown = false →
    leaf ∈ t.leaves → leaf.hasUnknown = false
  | .tensor t, h, hleaf => by
    obtain rfl := List.mem_singleton.mp hleaf
    exact h
  | .tuple fields, h, hleaf => Ty.hasUnknown_leaf_of_mem fields h hleaf
  | .handle _, _, hleaf => absurd hleaf List.not_mem_nil

theorem Ty.hasUnknown_leaf_of_mem {leaf : TensorType} : (ts : List Ty) →
    Ty.hasUnknownList ts = false → leaf ∈ Ty.leavesList ts → leaf.hasUnknown = false
  | [], _, hleaf => absurd hleaf List.not_mem_nil
  | t :: ts, h, hleaf => by
    rw [Ty.hasUnknownList, Bool.or_eq_false_iff] at h
    obtain hleaf | hleaf := List.mem_append.mp hleaf
    · exact Ty.hasUnknown_leaf t h.1 hleaf
    · exact Ty.hasUnknown_leaf_of_mem ts h.2 hleaf

end

private theorem takesNone_normalizeFields {fields : List Ty} (h : Ty.hasUnknownList fields = false)
    (hb : (Ty.tuple fields).Below old) :
    TakesNone (fun fields => (Ty.tuple fields).Below old)
      fun lots n => normalizeFields lots n fields := by
  induction fields with
  | nil => exact .pure hb
  | cons field fields ih =>
    rw [Ty.hasUnknownList, Bool.or_eq_false_iff] at h
    change ∀ leaf ∈ field.leaves ++ Ty.leavesList fields, leaf.Below old at hb
    rw [List.forall_mem_append] at hb
    have hrest := ih h.2 hb.2
    -- only a field that is a tensor has a normal form of its own
    have hkeep (field' : Ty) (hfield : field'.Below old) : TakesNone
        (fun fields => (Ty.tuple fields).Below old)
        fun lots n => normalizeFields lots n fields >>= fun r => .ok (field' :: r.1, r.2) := by
      refine hrest.bind fun fields' hfields' => .pure ?_
      change ∀ leaf ∈ field'.leaves ++ Ty.leavesList fields', leaf.Below old
      rw [List.forall_mem_append]
      exact ⟨hfield, hfields'⟩
    cases field with
    | tensor t =>
      have ht : t.Below old := hb.1 t List.mem_cons_self
      refine (TensorType.takesNone_normalize h.1 ht).bind fun t' ht' => hkeep (.tensor t') ?_
      intro leaf hleaf
      obtain rfl := List.mem_singleton.mp hleaf
      exact ht'
    | tuple fields' => exact hkeep _ hb.1
    | handle name => exact hkeep _ hb.1

/-- The normal form of a known type makes no symbolic variables. -/
private theorem Ty.takesNone_normalize {t : Ty} (h : t.hasUnknown = false) (hb : t.Below old) :
    TakesNone (Ty.Below old) fun lots n => t.normalize lots n := by
  cases t with
  | tensor t =>
    have ht : t.Below old := hb t List.mem_cons_self
    refine (TensorType.takesNone_normalize h ht).bind fun t' ht' => .pure ?_
    intro leaf hleaf
    obtain rfl := List.mem_singleton.mp hleaf
    exact ht'
  | tuple fields =>
    exact (takesNone_normalizeFields h hb).bind fun fields' hfields' => .pure hfields'
  | handle name => exact .pure hb

/-! ### Calls, constants and parameters -/

/-- **Pure collaborators** do the same with what looks the same. -/
abbrev Collaborators.Pure (c : Collaborators σ) (k : Setting σ) (old : Nat) : Prop :=
  c.AlikeIn (Correspondence.Fixed old) k

namespace Setting.SideBySide

variable {k : Setting σ} {w : Correspondence} {c : Collaborators σ} {call call' : Call}
  {inputs inputs' : List Tensor}

/-- What takes no numbers gives one value on both sides. -/
private theorem takeNone {α : Type} {Q : α → Prop} {P : Correspondence → α → α → Prop}
    {f : (Nat → Nat) → Nat → Except Fault (α × Nat)} (hw : w.Fixed old) (hf : TakesNone Q f)
    (hP : ∀ a, Q a → P w a a) :
    k.SideBySideIn (Correspondence.Fixed old) w P (Action.takeNumbers f)
      (Action.takeNumbers f) := by
  intro m m' hm
  unfold Action.takeNumbers
  obtain ⟨e, he⟩ | ⟨a, ha, hok⟩ := hf
  · rw [he, he]
    exact Ends.fault e m m'
  · rw [hok, hok]
    exact Ends.ok (Correspondence.Grows.refl w) hm ⟨hw, hP a ha⟩

/-- A type without unknown dimensions is normalized alike. -/
theorem normalize (hw : w.Fixed old) {t : Ty} (h : t.hasUnknown = false) (hb : t.Below old) :
    k.SideBySideIn (Correspondence.Fixed old) w (fun w => Ty.Alike w.numbers)
      (Action.takeNumbers fun lots next => t.normalize lots next)
      (Action.takeNumbers fun lots next => t.normalize lots next) :=
  takeNone hw (Ty.takesNone_normalize h hb) fun _ ht => hw.alike ht

/-- Constants of one type look alike. -/
theorem constantTensor (hw : w.Fixed old) {t : TensorType} (ht : t.hasUnknown = false)
    (hb : t.Below old) (a : Aspect) :
    k.SideBySideIn (Correspondence.Fixed old) w Correspondence.Same
      (TensorLowering.constantTensor a t) (TensorLowering.constantTensor a t) := by
  intro m m' hm
  obtain ⟨e, he, hrun⟩ | ⟨u, r, hr, hu, hrun⟩ := constantTensor_cases ht a hm.next
  · obtain ⟨e', he', hrun'⟩ | ⟨u', r', -, hu', -⟩ := constantTensor_cases ht a hm.next'
    · obtain rfl : e = e' := Except.error.inj (he.2.symm.trans he'.2)
      rw [hrun, hrun']
      exact Ends.fault e m m'
    · exact absurd he hu'.form.no_fault
  · obtain ⟨e', he', -⟩ | ⟨u', r', hr', hu', hrun'⟩ := constantTensor_cases ht a hm.next'
    · exact absurd he' hu.form.no_fault
    · rw [hrun, hrun']
      have hw' := hw.onto hr hr'
      have hsame : (w.onto hr hr').Same u u' :=
        ConstantForm.same hw'.loose (fun _ hi => hw'.numbers_self hi) hb hu hu'
      exact Ends.ok (w.grows_onto hr hr') ⟨hm.own, hm.own', hm.oracle, hm.oracle', rfl, rfl⟩
        ⟨hw', hsame⟩

end Setting.SideBySide

/-- Placeholders for known tensor types make no symbolic variables. -/
theorem Setting.admits_known (k : Setting σ) (old : Nat) :
    k.Admits (Correspondence.Fixed old) fun t => t.hasUnknown = false ∧ t.Below old := by
  constructor
  · intro w w' u u' h hw
    exact hw.grows h.grows h.numbers
  · rintro w t hw ⟨hknown, hbelow⟩
    refine SideBySide.takeNone hw (takesNone_normalizeShape hknown hbelow) fun shape hshape => ?_
    exact List.forall₂_same.mpr fun e he => (hshape e he).alike fun i hi => hw.numbers_self hi

/-- Pointwise collaborators are pure. -/
theorem Collaborators.pure_pointwise (k : Setting Unit) (old : Nat) :
    Collaborators.pointwise.Pure k old :=
  Collaborators.alikeIn_pointwise k fun _ _ _ _ h hw => hw.grows h.grows h.numbers

end TensorLowering
