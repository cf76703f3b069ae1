import TensorLowering.Proofs.EntryPoint.Arguments

/-!
# The outputs of a call

A call describes each output as it was lowered, with the values of the variables filled in. A
dimension comes back as a number if nothing stands in the way of computing it
(`IndexExpr.Resolvable`): no extent in it is unknown, each of its variables is a dimension of an
input, and what its arithmetic gives on the way is defined and fits into a word. The number is then
the one that the dimension stands for in exact arithmetic (`EntryPoint.call_resolves`).

The simplifier gets there from the leaves up. Where both operands have become numbers the operator
is applied to them, and `ArithOp.eval?_of_result?` says when this is not given up.
-/

namespace TensorLowering

variable {σ : Type}

/-! ### Dimensions that can be computed -/

/-- What arithmetic gives is defined and fits into a word. The remainder of the least word by `-1`
is left out: it fits, but it is computed together with a quotient that does not. -/
def IndexExpr.WithinWords (ρ : SymVar → Int) : IndexExpr → Prop
  | .arith op lhs rhs => ∃ a b n, lhs.Takes ρ a ∧ rhs.Takes ρ b ∧ op.result? a b = some n ∧
      InWord n ∧ ¬(op = .floorMod ∧ a = -9223372036854775808 ∧ b = -1)
  | .imm .. | .var _ | .unknown | .compare .. | .and .. | .or .. | .not _ => True

/-- The expression can be computed when the variables that are dimensions of inputs stand for the
values of `ρ`. -/
structure IndexExpr.Resolvable (inputs : List Tensor) (ρ : SymVar → Int) (e : IndexExpr) :
    Prop where
  hasUnknown : e.hasUnknown = false
  plain : e.EveryPart fun part => ∀ v, part = .var v → PlainIn inputs v
  withinWords : e.EveryPart (·.WithinWords ρ)

/-- The exact result is accepted if it is a word. -/
theorem ArithOp.eval?_of_result? {op : ArithOp} {a b n : Int} (h : op.result? a b = some n)
    (hn : InWord n) (hrem : ¬(op = .floorMod ∧ a = -9223372036854775808 ∧ b = -1)) :
    op.eval? a b = some n := by
  cases op with
  | add | sub | mul => exact wordOf?_eq_some_iff.mpr ⟨Option.some.inj h ▸ hn, Option.some.inj h⟩
  | floorDiv =>
    simp only [result?] at h
    split at h
    · cases h
    · next hb =>
      rw [eval?, if_neg, h]
      -- the quotient of the least word by `-1` is the one that is no word
      rintro (hzero | ⟨rfl, rfl⟩)
      · exact hb hzero
      · obtain rfl := Option.some.inj h
        revert hn
        decide
  | floorMod =>
    simp only [result?] at h
    split at h
    · cases h
    · next hb =>
      rw [eval?, if_neg, h]
      rintro (hzero | hleast)
      · exact hb hzero
      · exact hrem ⟨rfl, hleast⟩
  | min | max => exact h

namespace IndexExpr

variable {ρ : SymVar → Int} {known : Bindings} {inputs : List Tensor} {e : IndexExpr}

private theorem simplifyArith_imm {op : ArithOp} {a b n : Int} {t u : DataType}
    (h : op.eval? a b = some n) : simplifyArith op (.imm a t) (.imm b u) = .imm n t := by
  have hfold : foldArith? op (.imm a t) (.imm b u) = some n := h
  simp only [simplifyArith, hfold, dtype]

private theorem ofBool_eq {b : Bool} {p : Prop} [Decidable p] (h : b = true ↔ p) :
    ofBool b = .imm (truth p) .bool :=
  congrArg (imm · .bool) (if_congr h rfl rfl)

/-- **What can be computed is computed.** -/
theorem exists_simplify_eq_imm (hρ : known.AgreesWith ρ) (hunknown : e.hasUnknown = false)
    (hbound : e.EveryPart fun part => ∀ v, part = .var v → ∃ n, known.value? v = some n)
    (hwords : e.EveryPart (·.WithinWords ρ)) :
    ∃ n, e.Takes ρ n ∧ e.simplify known = .imm n e.dtype := by
  induction e with
  | imm n t => exact ⟨n, .imm n t, rfl⟩
  | var v =>
    obtain ⟨n, hn⟩ := hbound v rfl
    rw [simplify, hn, ← hρ v n hn]
    exact ⟨ρ v, .var v, rfl⟩
  | unknown => cases hunknown
  | arith op lhs rhs ihl ihr =>
    obtain ⟨hul, hur⟩ := Bool.or_eq_false_iff.mp hunknown
    obtain ⟨⟨a, b, n, hl, hr, hn, hword, hrem⟩, hwl, hwr⟩ := hwords
    obtain ⟨a', hl', hsl⟩ := ihl hul hbound.2.1 hwl
    obtain ⟨b', hr', hsr⟩ := ihr hur hbound.2.2 hwr
    obtain rfl := hl.unique hul hl'
    obtain rfl := hr.unique hur hr'
    rw [simplify, hsl, hsr, simplifyArith_imm (ArithOp.eval?_of_result? hn hword hrem)]
    exact ⟨n, .arith op hl hr hn, rfl⟩
  | compare op lhs rhs ihl ihr =>
    obtain ⟨hul, hur⟩ := Bool.or_eq_false_iff.mp hunknown
    obtain ⟨a, hl, hsl⟩ := ihl hul hbound.2.1 hwords.2.1
    obtain ⟨b, hr, hsr⟩ := ihr hur hbound.2.2 hwords.2.2
    rw [simplify, hsl, hsr]
    exact ⟨_, .compare op hl hr, ofBool_eq (op.holds_iff a b)⟩
  | and lhs rhs ihl ihr =>
    obtain ⟨hul, hur⟩ := Bool.or_eq_false_iff.mp hunknown
    obtain ⟨a, hl, hsl⟩ := ihl hul hbound.2.1 hwords.2.1
    obtain ⟨b, hr, hsr⟩ := ihr hur hbound.2.2 hwords.2.2
    rw [simplify, hsl, hsr]
    exact ⟨_, .and hl hr, ofBool_eq (by simp)⟩
  | or lhs rhs ihl ihr =>
    obtain ⟨hul, hur⟩ := Bool.or_eq_false_iff.mp hunknown
    obtain ⟨a, hl, hsl⟩ := ihl hul hbound.2.1 hwords.2.1
    obtain ⟨b, hr, hsr⟩ := ihr hur hbound.2.2 hwords.2.2
    rw [simplify, hsl, hsr]
    exact ⟨_, .or hl hr, ofBool_eq (by simp)⟩
  | not operand ih =>
    obtain ⟨a, ha, hs⟩ := ih hunknown hbound.2 hwords.2
    rw [simplify, hs]
    exact ⟨_, .not ha, ofBool_eq (by simp)⟩

/-- The dimension is resolved: if it can be computed, it has become the one number that it stands
for. -/
def ResolvedTo (inputs : List Tensor) (ρ : SymVar → Int) (dim result : IndexExpr) : Prop :=
  dim.Resolvable inputs ρ → ∃ n, (∀ k, dim.Takes ρ k ↔ k = n) ∧ result = .imm n dim.dtype

private theorem resolvedTo_simplify (hρ : known.AgreesWith ρ)
    (hbound : ∀ v, PlainIn inputs v → ∃ n, known.value? v = some n) (e : IndexExpr) :
    e.ResolvedTo inputs ρ (e.simplify known) := by
  intro he
  obtain ⟨n, hn, hsimplify⟩ := exists_simplify_eq_imm hρ he.hasUnknown
    (he.plain.imp fun _ hplain v hv => hbound v (hplain v hv)) he.withinWords
  refine ⟨n, fun k => ⟨fun hk => hk.unique he.hasUnknown hn, ?_⟩, hsimplify⟩
  rintro rfl
  exact hn

end IndexExpr

/-! ### Calls -/

/-- A description of an output: it has the element type, the rank and the name of the output, and
its dimensions are resolved. -/
structure Tensor.Describes (inputs : List Tensor) (ρ : SymVar → Int) (out t : Tensor) : Prop where
  dtype : t.dtype = out.dtype
  rank : t.rank = out.rank
  name : t.name = out.name
  shape : List.Forall₂ (IndexExpr.ResolvedTo inputs ρ) out.shape t.shape

namespace EntryPoint

variable {inputs : List Tensor} {known : Bindings} {ρ : SymVar → Int}

private theorem forall₂_describes_resolve (hρ : known.AgreesWith ρ)
    (hbound : ∀ v, PlainIn inputs v → ∃ n, known.value? v = some n) (next : Nat)
    (outputs : List Tensor) :
    List.Forall₂ (Tensor.Describes inputs ρ) outputs (resolve known next outputs) := by
  induction outputs generalizing next with
  | nil => exact .nil
  | cons out outputs ih =>
    refine .cons ⟨rfl, List.length_map .., rfl, ?_⟩ (ih (next + 1))
    rw [Tensor.shape, List.forall₂_map_right_iff]
    exact List.forall₂_same.mpr fun e _ => IndexExpr.resolvedTo_simplify hρ hbound e

/-- **A call resolves the outputs.** Arguments that are accepted fit under an assignment. Under
every assignment that they fit under, a call succeeds and describes each output: the element type,
the rank and the name are those of the output, and each dimension that can be computed is the number
that it stands for. -/
theorem call_resolves (a : Artifact) (m₀ : Machine σ) :
    ∃ p m₁, buildSymbolic a m₀ = (.ok p, m₁) ∧ ∀ actuals (m : Machine σ),
      (∀ ts n, p.call actuals m = (.ok ts, n) →
        ∃ ρ, List.Forall₂ (Tensor.Fits ρ) a.inputs actuals) ∧
      ∀ ρ, List.Forall₂ (Tensor.Fits ρ) a.inputs actuals →
        ∃ ts n, p.call actuals m = (.ok ts, n) ∧
          List.Forall₂ (Tensor.Describes a.inputs ρ) a.outputs ts := by
  obtain ⟨p, m₁, hbuild, hinputs, houtputs⟩ := exists_buildSymbolic a m₀
  refine ⟨p, m₁, hbuild, fun actuals m => ?_⟩
  rw [← hinputs, ← houtputs]
  constructor
  · intro ts n hok
    obtain ⟨known, hknown, -⟩ := call_eq_ok_iff.mp hok
    exact exists_bindAll_eq_ok_iff.mp ⟨known, hknown⟩
  · intro ρ hρ
    obtain ⟨known, hknown⟩ := exists_bindAll_eq_ok_iff.mpr ⟨ρ, hρ⟩
    have hagrees := (forall₂_fits_iff_of_bindAll hknown ρ).mp hρ
    have hbound v := ((solves_of_bindAll hknown).exists_value?_iff (v := v)).mpr
    exact ⟨_, _, call_eq_ok_iff.mpr ⟨known, hknown, rfl, rfl⟩,
      forall₂_describes_resolve hagrees hbound m.next p.outputs⟩

/-- For an input of the shape `(n)`, an argument of the shape `(5)` makes an output of the shape
`((n + 1) / 2)` one of the shape `(3)`. -/
theorem call_resolves_half :
    let n : SymVar := ⟨0, "n", .int64⟩
    let half := IndexExpr.arith .floorDiv (.arith .add (.var n) (.ofInt 1)) (.ofInt 2)
    let tensor (dim : IndexExpr) : Tensor := .placeholder 0 "" [dim] (.float 32)
    let a : Artifact := ⟨0, default, "", [tensor (.var n)], [tensor half], []⟩
    let m : Machine Unit := .initial () 0
    List.Forall₂ (Tensor.Fits fun _ => 5) a.inputs [tensor (.ofInt 5)] ∧
      half.Resolvable a.inputs (fun _ => 5) ∧
      ∃ p m₁, buildSymbolic a m = (.ok p, m₁) ∧
        ∃ t m', p.call [tensor (.ofInt 5)] m = (.ok [t], m') ∧ t.shape = [.imm 3 .int64] := by
  intro n half tensor a m
  let ρ : SymVar → Int := fun _ => 5
  have hfits : List.Forall₂ (Tensor.Fits ρ) a.inputs [tensor (.ofInt 5)] :=
    .cons ⟨rfl, .cons ⟨5, .int64, rfl, rfl⟩ .nil⟩ .nil
  have hn : (IndexExpr.var n).Takes ρ 5 := .var n
  have hsum : (IndexExpr.arith .add (.var n) (.ofInt 1)).Takes ρ 6 := .arith .add hn (.imm 1 _) rfl
  have hhalf : half.Takes ρ 3 := .arith .floorDiv hsum (.imm 2 _) rfl
  have hplain : PlainIn a.inputs n := ⟨_, .head _, .head _⟩
  have hresolvable : half.Resolvable a.inputs ρ := by
    refine ⟨rfl, ⟨nofun, ⟨nofun, ?_, nofun⟩, nofun⟩,
      ⟨6, 2, 3, hsum, .imm 2 _, rfl, by decide, by decide⟩,
      ⟨⟨5, 1, 6, hn, .imm 1 _, rfl, by decide, by decide⟩, trivial, trivial⟩, trivial⟩
    intro v hv
    exact IndexExpr.var.inj hv ▸ hplain
  obtain ⟨p, m₁, hbuild, hcall⟩ := call_resolves a m
  obtain ⟨ts, m', hok, hdescribes⟩ := (hcall [tensor (.ofInt 5)] m).2 ρ hfits
  obtain ⟨t, ts, ht, hts, rfl⟩ := List.forall₂_cons_left_iff.mp hdescribes
  obtain rfl := List.forall₂_nil_left_iff.mp hts
  obtain ⟨dim, dims, hdim, hdims, hshape⟩ := List.forall₂_cons_left_iff.mp ht.shape
  obtain rfl := List.forall₂_nil_left_iff.mp hdims
  obtain ⟨k, hk, rfl⟩ := hdim hresolvable
  obtain rfl := (hk 3).mp hhalf
  exact ⟨hfits, hresolvable, p, m₁, hbuild, t, m', hok, hshape⟩

end EntryPoint

end TensorLowering
