import TensorLowering.Lowering.Normalize
import TensorLowering.Proofs.Lowering.SideBySide

/-!
# Normal types side by side

Types that correspond have normal forms that correspond, or fail on the same dimension. Unknown
dimensions become variables in the order in which they are met, so the variables that are made on
both sides correspond one by one, whatever the lots are on both sides.

The functions that normalize take the number of draws before and return the number of draws after
them; `Correspondence.Draws` compares what they return.
-/

namespace TensorLowering

namespace Correspondence

variable {α β γ δ : Type} {lots lots' : Nat → Nat} {w w' : Correspondence}
  {P : Correspondence → α → β → Prop} {Q : Correspondence → γ → δ → Prop}

/-- On both sides numbers were taken from the supply, for values that are related; or the same
fault was met. -/
inductive Draws (w : Correspondence) (P : Correspondence → α → β → Prop) :
    Except Fault (α × Nat) → Except Fault (β × Nat) → Prop where
  | ok {w' : Correspondence} {a : α} {b : β} : w.Grows w' → w'.tensors = w.tensors → P w' a b →
      Draws w P (.ok (a, w'.left.next)) (.ok (b, w'.right.next))
  | error (e : Fault) : Draws w P (.error e) (.error e)

/-- To draw nothing draws alike. -/
theorem Draws.pure {a : α} {b : β} (h : P w a b) :
    w.Draws P (.ok (a, w.left.next)) (.ok (b, w.right.next)) :=
  Draws.ok (Grows.refl w) rfl h

/-- What is drawn next goes on from the number that was left. -/
theorem Draws.bind {r : Except Fault (α × Nat)} {s : Except Fault (β × Nat)}
    {f : α × Nat → Except Fault (γ × Nat)} {g : β × Nat → Except Fault (δ × Nat)}
    (h : w.Draws P r s)
    (hfg : ∀ w' a b, w.Grows w' → P w' a b →
      w'.Draws Q (f (a, w'.left.next)) (g (b, w'.right.next))) :
    w.Draws Q (r >>= f) (s >>= g) := by
  cases h with
  | error e => exact Draws.error e
  | @ok w' a b hgrows htensors hab =>
    have hnext := hfg w' a b hgrows hab
    change w.Draws Q (f (a, w'.left.next)) (g (b, w'.right.next))
    generalize f (a, w'.left.next) = r at hnext
    generalize g (b, w'.right.next) = s at hnext
    cases hnext with
    | error e => exact Draws.error e
    | ok hgrows' htensors' hcd =>
      exact Draws.ok (hgrows.trans hgrows') (htensors'.trans htensors) hcd

/-! ### Normal forms -/

/-- An unknown dimension becomes a variable of the number that is drawn next on each side. -/
private theorem draws_normalizeDim {e e' : IndexExpr} (h : e.Alike w.numbers e') :
    w.Draws (fun w => IndexExpr.Alike w.numbers) (normalizeDim lots w.left.next e)
      (normalizeDim lots' w.right.next e') := by
  cases h with
  | imm n t =>
    rw [normalizeDim, normalizeDim]
    split
    · exact Draws.pure (.imm n .int32)
    · exact Draws.error (.dimensionOverflow n)
  | unknown =>
    have hnew : (w.pair (lots w.left.next) (lots' w.right.next)).numbers
        ⟨lots w.left.next, w.left.next⟩ ⟨lots' w.right.next, w.right.next⟩ := Or.inr ⟨rfl, rfl⟩
    exact Draws.ok (w.grows_pair _ _) rfl (.var ⟨hnew, rfl, rfl⟩)
  | var hv => exact Draws.pure (.var hv)
  | arith op hl hr => exact Draws.pure (.arith op hl hr)
  | compare op hl hr => exact Draws.pure (.compare op hl hr)
  | and hl hr => exact Draws.pure (.and hl hr)
  | or hl hr => exact Draws.pure (.or hl hr)
  | not h => exact Draws.pure (.not h)

/-- Shapes that correspond have normal forms that do. -/
theorem draws_normalizeShape {shape shape' : List IndexExpr}
    (h : List.Forall₂ (IndexExpr.Alike w.numbers) shape shape') :
    w.Draws (fun w => List.Forall₂ (IndexExpr.Alike w.numbers))
      (normalizeShape w.left.next shape lots) (normalizeShape w.right.next shape' lots') := by
  induction shape generalizing shape' w with
  | nil =>
    obtain rfl := List.forall₂_nil_left_iff.mp h
    exact Draws.pure List.Forall₂.nil
  | cons e shape ih =>
    obtain ⟨e', shape', he, hshape, rfl⟩ := List.forall₂_cons_left_iff.mp h
    refine (draws_normalizeDim he).bind fun w₁ d d' hw₁ hd => ?_
    refine (ih (forall₂_alike_mono hw₁.numbers hshape)).bind fun w₂ ds ds' hw₂ hds => ?_
    exact Draws.pure (List.Forall₂.cons (hd.mono hw₂.numbers) hds)

private theorem draws_normalizeTensor {t t' : TensorType} (h : t.Alike w.numbers t') :
    w.Draws (fun w => TensorType.Alike w.numbers) (t.normalize lots w.left.next)
      (t'.normalize lots' w.right.next) := by
  refine (draws_normalizeShape h.shape).bind fun w₁ shape shape' _ hshape => ?_
  exact Draws.pure ⟨hshape, h.dtype⟩

private theorem draws_normalizeFields {fields fields' : List Ty}
    (h : Ty.AlikeAll w.numbers fields fields') :
    w.Draws (fun w => Ty.AlikeAll w.numbers) (normalizeFields lots w.left.next fields)
      (normalizeFields lots' w.right.next fields') := by
  induction fields generalizing fields' w with
  | nil =>
    cases fields' with
    | nil => exact Draws.pure trivial
    | cons => exact h.elim
  | cons field fields ih =>
    cases fields' with
    | nil => exact h.elim
    | cons field' fields' =>
      obtain ⟨hfield, hfields⟩ := h
      -- only a field that is a tensor draws numbers; any other one is kept
      have hkeep : w.Draws (fun w => Ty.AlikeAll w.numbers)
          (normalizeFields lots w.left.next fields >>= fun r => .ok (field :: r.1, r.2))
          (normalizeFields lots' w.right.next fields' >>= fun r => .ok (field' :: r.1, r.2)) := by
        refine (ih hfields).bind fun w₁ fs fs' hw₁ hfs => ?_
        exact Draws.pure ⟨Ty.Alike.mono hw₁.numbers _ _ hfield, hfs⟩
      match field, field', hfield, hkeep with
      | .tensor t, .tensor t', ht, _ =>
        refine (draws_normalizeTensor ht).bind fun w₁ u u' hw₁ hu => ?_
        refine (ih (Ty.AlikeAll.mono hw₁.numbers _ _ hfields)).bind fun w₂ fs fs' hw₂ hfs => ?_
        exact Draws.pure ⟨⟨forall₂_alike_mono hw₂.numbers hu.shape, hu.dtype⟩, hfs⟩
      | .tuple _, .tuple _, _, hkeep => exact hkeep
      | .handle _, .handle _, _, hkeep => exact hkeep

/-- **Types that correspond have normal forms that do**, whatever lots are drawn. -/
theorem draws_normalize {t t' : Ty} (h : t.Alike w.numbers t') :
    w.Draws (fun w => Ty.Alike w.numbers) (t.normalize lots w.left.next)
      (t'.normalize lots' w.right.next) := by
  match t, t', h with
  | .tensor t, .tensor t', h =>
    refine (draws_normalizeTensor h).bind fun w₁ u u' _ hu => ?_
    exact Draws.pure hu
  | .tuple fields, .tuple fields', h =>
    refine (draws_normalizeFields h).bind fun w₁ fs fs' _ hfs => ?_
    exact Draws.pure hfs
  | .handle name, .handle name', h => exact Draws.pure h

end Correspondence

/-- Numbers that are drawn alike are taken from the supplies alike. No tensor is made. -/
theorem Setting.SideBySide.takeNumbers {σ α β : Type} {k : Setting σ} {w : Correspondence}
    {P : Correspondence → α → β → Prop} {f : (Nat → Nat) → Nat → Except Fault (α × Nat)}
    {g : (Nat → Nat) → Nat → Except Fault (β × Nat)}
    (h : ∀ lots lots', w.Draws P (f lots w.left.next) (g lots' w.right.next)) :
    k.SideBySide w (fun w' a b => w'.tensors = w.tensors ∧ P w' a b) (Action.takeNumbers f)
      (Action.takeNumbers g) := by
  intro m m' hm
  have hdraws := h m.lots m'.lots
  unfold Action.takeNumbers
  rw [hm.next, hm.next']
  generalize f m.lots w.left.next = r at hdraws
  generalize g m'.lots w.right.next = s at hdraws
  cases hdraws with
  | error e => exact Ends.fault e m m'
  | ok hgrows htensors hab =>
    refine Ends.ok hgrows ?_ ⟨htensors, hab⟩
    exact ⟨hm.own, hm.own', hm.oracle, hm.oracle', rfl, rfl⟩

end TensorLowering
