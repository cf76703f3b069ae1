import TensorLowering.Proofs.Index.NormalForm

/-!
# Simplified expressions stay as they are

An expression is well typed if the operands of every arithmetic operator have one element type and
the operands of conjunctions and disjunctions are truth values (`IndexExpr.WellTyped`). For such an
expression the simplified form has the same element type, it is well typed again, and to simplify it
once more changes nothing (`IndexExpr.simplify_stable`).

For each step of the simplifier there is one lemma that lists what the step can result in, such as
`IndexExpr.simplifyArith_cases`. A step that was given up is given up again, since its operands are
simplified already. The other case of interest is a sum that was written out: it is read back as the
form it was written from, and so are its parts (`LinearForm.simplify_toExpr`). This is where the
typing is used, since a sum is written in the element type of its first operand.
-/

namespace TensorLowering

namespace IndexExpr

/-! ### Well-typed expressions -/

/-- The operands of an arithmetic operator have one element type, and those of a conjunction or a
disjunction are truth values. -/
def WellTyped : IndexExpr → Prop
  | .imm .. | .var _ | .unknown => True
  | .arith _ lhs rhs => lhs.dtype = rhs.dtype ∧ lhs.WellTyped ∧ rhs.WellTyped
  | .compare _ lhs rhs => lhs.WellTyped ∧ rhs.WellTyped
  | .and lhs rhs | .or lhs rhs =>
    (lhs.dtype = .bool ∧ rhs.dtype = .bool) ∧ lhs.WellTyped ∧ rhs.WellTyped
  | .not operand => operand.WellTyped

instance WellTyped.decide : DecidablePred WellTyped
  | .imm .. | .var _ | .unknown => inferInstanceAs (Decidable True)
  | .arith _ lhs rhs =>
    have := decide lhs
    have := decide rhs
    inferInstanceAs (Decidable (_ ∧ _ ∧ _))
  | .compare _ lhs rhs =>
    have := decide lhs
    have := decide rhs
    inferInstanceAs (Decidable (_ ∧ _))
  | .and lhs rhs | .or lhs rhs =>
    have := decide lhs
    have := decide rhs
    inferInstanceAs (Decidable (_ ∧ _ ∧ _))
  | .not operand => decide operand

/-- All variables that occur are of this kind. -/
def Over (p : SymVar → Prop) : IndexExpr → Prop
  | .imm .. | .unknown => True
  | .var v => p v
  | .arith _ lhs rhs | .compare _ lhs rhs | .and lhs rhs | .or lhs rhs => lhs.Over p ∧ rhs.Over p
  | .not operand => operand.Over p

end IndexExpr

/-! ### The variables of a form -/

namespace LinearForm

/-- All variables of the form are of this kind. -/
def Over (p : SymVar → Prop) (a : LinearForm) : Prop := ∀ term ∈ a.terms, p term.1

variable {a b form : LinearForm} {factor sign : Int} {p : SymVar → Prop} {e : IndexExpr}

/-- A sum has no other variables than its operands. -/
theorem Over.add? (ha : a.Over p) (hb : b.Over p) (h : a.add? b sign = some form) :
    form.Over p := by
  obtain ⟨terms, hterms, -, -, rfl⟩ := add?_eq_some_iff.mp h
  intro term hterm
  obtain hmem | ⟨hmem, -⟩ := mem_addTerms? hterms (List.mem_of_mem_filter hterm)
  · exact ha term hmem
  · obtain ⟨other, hother, heq⟩ := List.mem_map.mp hmem
    exact heq ▸ hb other hother

/-- A multiple has no other variables than the form. -/
theorem Over.scale? (ha : a.Over p) (h : a.scale? factor = some form) : form.Over p := by
  obtain rfl | ⟨-, -, -, rfl⟩ := scale?_cases h
  · exact fun term hterm => absurd hterm List.not_mem_nil
  · intro term hterm
    obtain ⟨other, hother, rfl⟩ := List.mem_map.mp hterm
    exact ha other hother

private theorem Over.mul? (ha : a.Over p) (hb : b.Over p) (h : a.mul? b = some form) :
    form.Over p := by
  obtain ⟨n, -, h⟩ | ⟨n, -, h⟩ := mul?_cases h
  · exact hb.scale? h
  · exact ha.scale? h

/-- A sum has the element type of its first operand. -/
theorem dtype_add? (h : a.add? b sign = some form) : form.dtype = a.dtype := by
  obtain ⟨terms, -, -, -, rfl⟩ := add?_eq_some_iff.mp h
  rfl

/-- A multiple has the element type of the form. -/
theorem dtype_scale? (h : a.scale? factor = some form) : form.dtype = a.dtype := by
  obtain rfl | ⟨-, -, -, rfl⟩ := scale?_cases h
  · rfl
  · rfl

private theorem dtype_mul? (hdtype : b.dtype = a.dtype) (h : a.mul? b = some form) :
    form.dtype = a.dtype := by
  obtain ⟨n, -, h⟩ | ⟨n, -, h⟩ := mul?_cases h
  · exact (dtype_scale? h).trans hdtype
  · exact dtype_scale? h

/-- The variables of a form are those of the expression it is read off. -/
theorem Over.of_ofExpr? (h : ofExpr? e = some form) (he : e.Over p) : form.Over p := by
  replace h := readOff_of_ofExpr? h
  induction h with
  | imm => exact fun term hterm => absurd hterm List.not_mem_nil
  | var => exact List.forall_mem_singleton.mpr he
  | add _ _ hadd ihl ihr | sub _ _ hadd ihl ihr => exact (ihl he.1).add? (ihr he.2) hadd
  | mul _ _ hmul ihl ihr => exact (ihl he.1).mul? (ihr he.2) hmul

/-- A form over variables of the type of one that is typed is typed. -/
theorem Typed.of_over (ha : a.Typed) (hdtype : form.dtype = a.dtype)
    (hover : form.Over (·.dtype = a.dtype)) : form.Typed :=
  ⟨hdtype ▸ ha.isInt, fun term hterm => (hover term hterm).trans hdtype.symm⟩

/-- A form that is read off a well-typed expression has its element type, and so have its
variables. -/
theorem typed_of_ofExpr? (h : ofExpr? e = some form) (he : e.WellTyped) :
    form.dtype = e.dtype ∧ form.Typed := by
  replace h := readOff_of_ofExpr? h
  induction h with
  | imm ht => exact ⟨rfl, ht, fun term hterm => absurd hterm List.not_mem_nil⟩
  | var hv => exact ⟨rfl, hv, List.forall_mem_singleton.mpr rfl⟩
  | @add lhs rhs a b form _ _ hadd ihl ihr | @sub lhs rhs a b form _ _ hadd ihl ihr =>
    obtain ⟨hsame, hl, hr⟩ := he
    obtain ⟨hdl, hta⟩ := ihl hl
    obtain ⟨hdr, htb⟩ := ihr hr
    have hba : b.dtype = a.dtype := hdr.trans (hsame.symm.trans hdl.symm)
    have hb : b.Over (·.dtype = a.dtype) := fun term hterm => (htb.dtype term hterm).trans hba
    exact ⟨(dtype_add? hadd).trans hdl, hta.of_over (dtype_add? hadd) (Over.add? hta.dtype hb hadd)⟩
  | @mul lhs rhs a b form _ _ hmul ihl ihr =>
    obtain ⟨hsame, hl, hr⟩ := he
    obtain ⟨hdl, hta⟩ := ihl hl
    obtain ⟨hdr, htb⟩ := ihr hr
    have hba : b.dtype = a.dtype := hdr.trans (hsame.symm.trans hdl.symm)
    have hb : b.Over (·.dtype = a.dtype) := fun term hterm => (htb.dtype term hterm).trans hba
    exact ⟨(dtype_mul? hba hmul).trans hdl,
      hta.of_over (dtype_mul? hba hmul) (Over.mul? hta.dtype hb hmul)⟩

private theorem over_termExpr {t : DataType} {term : SymVar × Int} (h : p term.1) :
    (termExpr t term).Over p := by
  unfold termExpr
  split
  · exact h
  · exact ⟨h, trivial⟩

private theorem Over.toExpr (ha : a.Over p) : a.toExpr.Over p := by
  induction a using sum_induction with
  | number k t => trivial
  | single term t => exact over_termExpr (ha term List.mem_cons_self)
  | concat terms term t hne ih =>
    rw [toExpr_concat hne]
    exact ⟨ih fun other h => ha other (by simp [h]), over_termExpr (ha term (by simp))⟩
  | shift terms k t hne hk ih =>
    rw [toExpr_shift hne hk]
    exact ⟨ih ha, trivial⟩

private theorem typed_termExpr {t : DataType} {term : SymVar × Int} (h : term.1.dtype = t) :
    (termExpr t term).dtype = t ∧ (termExpr t term).WellTyped := by
  unfold termExpr
  split
  · exact ⟨h, trivial⟩
  · exact ⟨h, h, trivial, trivial⟩

private theorem Typed.toExpr (ha : a.Typed) : a.toExpr.dtype = a.dtype ∧ a.toExpr.WellTyped := by
  induction a using sum_induction with
  | number k t => exact ⟨rfl, trivial⟩
  | single term t => exact typed_termExpr (ha.dtype term List.mem_cons_self)
  | concat terms term t hne ih =>
    obtain ⟨hdtype, htyped⟩ := ih ⟨ha.isInt, fun other h => ha.dtype other (by simp [h])⟩
    obtain ⟨hdtype', htyped'⟩ := typed_termExpr (ha.dtype term (by simp))
    rw [toExpr_concat hne]
    exact ⟨hdtype, hdtype.trans hdtype'.symm, htyped, htyped'⟩
  | shift terms k t hne hk ih =>
    obtain ⟨hdtype, htyped⟩ := ih ⟨ha.isInt, ha.dtype⟩
    rw [toExpr_shift hne hk]
    exact ⟨hdtype, hdtype, htyped, trivial⟩

end LinearForm

namespace IndexExpr

open LinearForm

variable {known : Bindings} {e lhs rhs operand : IndexExpr} {form : LinearForm} {op : ArithOp}

/-! ### What a step can result in -/

/-- What is linear and not a constant is written from its form. -/
theorem simplifyArith_of_ofExpr? (hfold : foldArith? op lhs rhs = none)
    (hform : ofExpr? (.arith op lhs rhs) = some form) :
    simplifyArith op lhs rhs = form.toExpr := by
  simp only [simplifyArith, linearize, hfold, hform]

private theorem simplifyArith_cases (op : ArithOp) (lhs rhs : IndexExpr) :
    (∃ n, simplifyArith op lhs rhs = .imm n lhs.dtype) ∨
      (∃ form, ofExpr? (.arith op lhs rhs) = some form ∧
        simplifyArith op lhs rhs = form.toExpr) ∨
      simplifyArith op lhs rhs = .arith op lhs rhs := by
  unfold simplifyArith linearize
  split
  · next n _ => exact Or.inl ⟨n, rfl⟩
  · split
    · next form hform => exact Or.inr (Or.inl ⟨form, hform, rfl⟩)
    · exact Or.inr (Or.inr rfl)

private theorem simplifyCompare_cases (op : CompareOp) (lhs rhs : IndexExpr) :
    (∃ b, simplifyCompare op lhs rhs = ofBool b) ∨
      simplifyCompare op lhs rhs = .compare op lhs rhs := by
  unfold simplifyCompare
  split
  · exact Or.inl ⟨_, rfl⟩
  · split
    · exact Or.inr rfl
    · split
      · exact Or.inl ⟨_, rfl⟩
      · split
        · exact Or.inl ⟨_, rfl⟩
        · exact Or.inr rfl

private theorem simplifyAnd_cases (lhs rhs : IndexExpr) :
    (∃ b, simplifyAnd lhs rhs = ofBool b) ∨ simplifyAnd lhs rhs = lhs ∨
      simplifyAnd lhs rhs = rhs ∨ simplifyAnd lhs rhs = .and lhs rhs := by
  unfold simplifyAnd
  split
  · exact Or.inl ⟨_, rfl⟩
  · split <;> simp
  · split <;> simp
  · simp

private theorem simplifyOr_cases (lhs rhs : IndexExpr) :
    (∃ b, simplifyOr lhs rhs = ofBool b) ∨ simplifyOr lhs rhs = lhs ∨
      simplifyOr lhs rhs = rhs ∨ simplifyOr lhs rhs = .or lhs rhs := by
  unfold simplifyOr
  split
  · exact Or.inl ⟨_, rfl⟩
  · split <;> simp
  · split <;> simp
  · simp

private theorem simplifyNot_cases (operand : IndexExpr) :
    (∃ b, simplifyNot operand = ofBool b) ∨ simplifyNot operand = .not operand := by
  unfold simplifyNot
  split
  · exact Or.inl ⟨_, rfl⟩
  · exact Or.inr rfl

/-! ### Types and variables -/

/-- **Simplification keeps the element type**, and the expression well typed. -/
theorem WellTyped.simplify (he : e.WellTyped) :
    (e.simplify known).dtype = e.dtype ∧ (e.simplify known).WellTyped := by
  induction e with
  | imm | unknown => exact ⟨rfl, trivial⟩
  | var v =>
    rw [IndexExpr.simplify]
    split <;> exact ⟨rfl, trivial⟩
  | arith op lhs rhs ihl ihr =>
    obtain ⟨hsame, hl, hr⟩ := he
    obtain ⟨hdl, hl⟩ := ihl hl
    obtain ⟨hdr, hr⟩ := ihr hr
    have hrebuilt : (arith op (lhs.simplify known) (rhs.simplify known)).WellTyped :=
      ⟨hdl.trans (hsame.trans hdr.symm), hl, hr⟩
    rw [IndexExpr.simplify, dtype]
    obtain ⟨n, h⟩ | ⟨form, hform, h⟩ | h :=
      simplifyArith_cases op (lhs.simplify known) (rhs.simplify known)
    · rw [h]
      exact ⟨hdl, trivial⟩
    · obtain ⟨hdtype, htyped⟩ := typed_of_ofExpr? hform hrebuilt
      rw [h, htyped.toExpr.1]
      exact ⟨hdtype.trans hdl, htyped.toExpr.2⟩
    · rw [h]
      exact ⟨hdl, hrebuilt⟩
  | compare op lhs rhs ihl ihr =>
    rw [IndexExpr.simplify]
    obtain ⟨b, h⟩ | h := simplifyCompare_cases op (lhs.simplify known) (rhs.simplify known)
    · rw [h]
      exact ⟨rfl, trivial⟩
    · rw [h]
      exact ⟨rfl, (ihl he.1).2, (ihr he.2).2⟩
  | and lhs rhs ihl ihr =>
    obtain ⟨⟨hbl, hbr⟩, hl, hr⟩ := he
    obtain ⟨hdl, hl⟩ := ihl hl
    obtain ⟨hdr, hr⟩ := ihr hr
    rw [IndexExpr.simplify]
    obtain ⟨b, h⟩ | h | h | h := simplifyAnd_cases (lhs.simplify known) (rhs.simplify known)
    · rw [h]
      exact ⟨rfl, trivial⟩
    · rw [h]
      exact ⟨hdl.trans hbl, hl⟩
    · rw [h]
      exact ⟨hdr.trans hbr, hr⟩
    · rw [h]
      exact ⟨rfl, ⟨hdl.trans hbl, hdr.trans hbr⟩, hl, hr⟩
  | or lhs rhs ihl ihr =>
    obtain ⟨⟨hbl, hbr⟩, hl, hr⟩ := he
    obtain ⟨hdl, hl⟩ := ihl hl
    obtain ⟨hdr, hr⟩ := ihr hr
    rw [IndexExpr.simplify]
    obtain ⟨b, h⟩ | h | h | h := simplifyOr_cases (lhs.simplify known) (rhs.simplify known)
    · rw [h]
      exact ⟨rfl, trivial⟩
    · rw [h]
      exact ⟨hdl.trans hbl, hl⟩
    · rw [h]
      exact ⟨hdr.trans hbr, hr⟩
    · rw [h]
      exact ⟨rfl, ⟨hdl.trans hbl, hdr.trans hbr⟩, hl, hr⟩
  | not operand ih =>
    rw [IndexExpr.simplify]
    obtain ⟨b, h⟩ | h := simplifyNot_cases (operand.simplify known)
    · rw [h]
      exact ⟨rfl, trivial⟩
    · rw [h]
      exact ⟨rfl, (ih he).2⟩

/-- No bound variable is left. -/
theorem over_simplify (known : Bindings) (e : IndexExpr) :
    (e.simplify known).Over (known.value? · = none) := by
  induction e with
  | imm | unknown => trivial
  | var v =>
    rw [IndexExpr.simplify]
    split
    · trivial
    · assumption
  | arith op lhs rhs ihl ihr =>
    rw [IndexExpr.simplify]
    obtain ⟨n, h⟩ | ⟨form, hform, h⟩ | h :=
      simplifyArith_cases op (lhs.simplify known) (rhs.simplify known)
    · rw [h]
      trivial
    · rw [h]
      exact (LinearForm.Over.of_ofExpr? hform ⟨ihl, ihr⟩).toExpr
    · rw [h]
      exact ⟨ihl, ihr⟩
  | compare op lhs rhs ihl ihr =>
    rw [IndexExpr.simplify]
    obtain ⟨b, h⟩ | h := simplifyCompare_cases op (lhs.simplify known) (rhs.simplify known)
    · rw [h]
      trivial
    · rw [h]
      exact ⟨ihl, ihr⟩
  | and lhs rhs ihl ihr =>
    rw [IndexExpr.simplify]
    obtain ⟨b, h⟩ | h | h | h := simplifyAnd_cases (lhs.simplify known) (rhs.simplify known)
    · rw [h]
      trivial
    · rwa [h]
    · rwa [h]
    · rw [h]
      exact ⟨ihl, ihr⟩
  | or lhs rhs ihl ihr =>
    rw [IndexExpr.simplify]
    obtain ⟨b, h⟩ | h | h | h := simplifyOr_cases (lhs.simplify known) (rhs.simplify known)
    · rw [h]
      trivial
    · rwa [h]
    · rwa [h]
    · rw [h]
      exact ⟨ihl, ihr⟩
  | not operand ih =>
    rw [IndexExpr.simplify]
    obtain ⟨b, h⟩ | h := simplifyNot_cases (operand.simplify known)
    · rw [h]
      trivial
    · rwa [h]

end IndexExpr

/-! ### Sums that are written out -/

namespace LinearForm

variable {known : Bindings} {a : LinearForm} {lhs rhs : IndexExpr} {op : ArithOp}

/-- What is written from a form with terms is no number. -/
theorem value?_toExpr (hne : a.terms ≠ []) : a.toExpr.value? = none := by
  induction a using sum_induction with
  | number k t => exact absurd rfl hne
  | single term t =>
    simp only [LinearForm.toExpr, sumFrom, List.foldl_nil, if_true, termExpr]
    split <;> rfl
  | concat terms term t hterms =>
    rw [toExpr_concat hterms]
    rfl
  | shift terms k t hterms hk =>
    rw [toExpr_shift hterms hk]
    rfl

/-- A sum with operands that stay as they are stays as it is, since it is read back. -/
private theorem simplify_toExpr_of_operands (ha : a.Normal) (ht : a.Typed)
    (hsum : a.toExpr = .arith op lhs rhs) (hnum : lhs.value? = none)
    (hl : lhs.simplify known = lhs) (hr : rhs.simplify known = rhs) :
    a.toExpr.simplify known = a.toExpr := by
  have hfold : IndexExpr.foldArith? op lhs rhs = none := by simp [IndexExpr.foldArith?, hnum]
  have hform : ofExpr? (.arith op lhs rhs) = some a := hsum ▸ ofExpr?_toExpr ha ht
  rw [hsum, IndexExpr.simplify, hl, hr, IndexExpr.simplifyArith_of_ofExpr? hfold hform, hsum]

private theorem simplify_term {term : SymVar × Int} {t : DataType} (ha : Normal ⟨[term], 0, t⟩)
    (ht : Typed ⟨[term], 0, t⟩) (hunbound : known.value? term.1 = none) :
    (termExpr t term).simplify known = termExpr t term := by
  have hvar : (IndexExpr.var term.1).simplify known = .var term.1 := by
    simp [IndexExpr.simplify, hunbound]
  by_cases hone : term.2 = 1
  · rw [termExpr, if_pos hone, hvar]
  · have hsum : toExpr ⟨[term], 0, t⟩ = .arith .mul (.var term.1) (.imm term.2 t) := if_neg hone
    exact simplify_toExpr_of_operands ha ht hsum rfl hvar rfl

/-- **A sum that is written out stays as it is**, if no variable in it is bound. -/
theorem simplify_toExpr (ha : a.Normal) (ht : a.Typed) (hunbound : a.Over (known.value? · = none)) :
    a.toExpr.simplify known = a.toExpr := by
  induction a using sum_induction with
  | number k t => rfl
  | single term t => exact simplify_term ha ht (hunbound term List.mem_cons_self)
  | concat terms term t hne ih =>
    have hterms := ih ha.of_append ⟨ht.isInt, fun other h => ht.dtype other (by simp [h])⟩
      fun other h => hunbound other (by simp [h])
    have hmem : term ∈ terms ++ [term] := by simp
    have hterm : Normal ⟨[term], 0, t⟩ :=
      ⟨List.pairwise_singleton _ _, List.forall_mem_singleton.mpr (ha.nonzero term hmem),
        List.forall_mem_singleton.mpr (ha.inWord term hmem), Or.inr inWord_zero⟩
    refine simplify_toExpr_of_operands ha ht (toExpr_concat hne term) (value?_toExpr hne) hterms ?_
    exact simplify_term hterm ⟨ht.isInt, List.forall_mem_singleton.mpr (ht.dtype term hmem)⟩
      (hunbound term hmem)
  | shift terms k t hne hk ih =>
    have hterms := ih ⟨ha.ordered, ha.nonzero, ha.inWord, Or.inr inWord_zero⟩ ⟨ht.isInt, ht.dtype⟩
      hunbound
    exact simplify_toExpr_of_operands ha ht (toExpr_shift hne hk) (value?_toExpr hne) hterms rfl

end LinearForm

/-! ### Simplifying twice -/

namespace IndexExpr

open LinearForm

variable {known : Bindings} {e : IndexExpr}

/-- **Simplification is idempotent** on well-typed expressions. -/
theorem WellTyped.simplify_simplify (he : e.WellTyped) :
    (e.simplify known).simplify known = e.simplify known := by
  induction e with
  | imm | unknown => rfl
  | var v =>
    have hvar := over_simplify known (.var v)
    rw [IndexExpr.simplify] at hvar ⊢
    split at hvar
    · rfl
    · simp only [Over] at hvar
      simp [IndexExpr.simplify, hvar]
  | arith op lhs rhs ihl ihr =>
    obtain ⟨hsame, hl, hr⟩ := he
    have hrebuilt : (arith op (lhs.simplify known) (rhs.simplify known)).WellTyped :=
      ⟨hl.simplify.1.trans (hsame.trans hr.simplify.1.symm), hl.simplify.2, hr.simplify.2⟩
    rw [IndexExpr.simplify]
    obtain ⟨n, h⟩ | ⟨form, hform, h⟩ | h :=
      simplifyArith_cases op (lhs.simplify known) (rhs.simplify known)
    · rw [h]
      rfl
    · rw [h]
      exact simplify_toExpr (normal_of_ofExpr? hform) (typed_of_ofExpr? hform hrebuilt).2
        (LinearForm.Over.of_ofExpr? hform ⟨over_simplify known lhs, over_simplify known rhs⟩)
    · -- the step was given up, and its operands are the same the second time
      rw [h, IndexExpr.simplify, ihl hl, ihr hr, h]
  | compare op lhs rhs ihl ihr =>
    rw [IndexExpr.simplify]
    obtain ⟨b, h⟩ | h := simplifyCompare_cases op (lhs.simplify known) (rhs.simplify known)
    · rw [h]
      rfl
    · rw [h, IndexExpr.simplify, ihl he.1, ihr he.2, h]
  | and lhs rhs ihl ihr =>
    obtain ⟨-, hl, hr⟩ := he
    rw [IndexExpr.simplify]
    obtain ⟨b, h⟩ | h | h | h := simplifyAnd_cases (lhs.simplify known) (rhs.simplify known)
    · rw [h]
      rfl
    · rw [h, ihl hl]
    · rw [h, ihr hr]
    · rw [h, IndexExpr.simplify, ihl hl, ihr hr, h]
  | or lhs rhs ihl ihr =>
    obtain ⟨-, hl, hr⟩ := he
    rw [IndexExpr.simplify]
    obtain ⟨b, h⟩ | h | h | h := simplifyOr_cases (lhs.simplify known) (rhs.simplify known)
    · rw [h]
      rfl
    · rw [h, ihl hl]
    · rw [h, ihr hr]
    · rw [h, IndexExpr.simplify, ihl hl, ihr hr, h]
  | not operand ih =>
    rw [IndexExpr.simplify]
    obtain ⟨b, h⟩ | h := simplifyNot_cases (operand.simplify known)
    · rw [h]
      rfl
    · rw [h, IndexExpr.simplify, ih he, h]

/-- **Simplification is stable.** It keeps the element type of a well-typed expression, its result
is well typed again, and to simplify the result changes nothing, whatever is known about variables
and whichever steps were given up. -/
theorem simplify_stable (known : Bindings) (e : IndexExpr) (he : e.WellTyped) :
    (e.simplify known).dtype = e.dtype ∧ (e.simplify known).WellTyped ∧
      (e.simplify known).simplify known = e.simplify known :=
  ⟨he.simplify.1, he.simplify.2, he.simplify_simplify⟩

/-- With `m` known to be the largest word, the sum in `m + 1 < n * 2 - n && 1 / 0 == n` overflows
and the division is undefined. Both are given up, and they are given up again. -/
theorem simplify_stable_given_up :
    let n : SymVar := ⟨0, "n", .int64⟩
    let m : SymVar := ⟨1, "m", .int64⟩
    let known : Bindings := Bindings.bind [] m 9223372036854775807
    let doubled := IndexExpr.arith .mul (.var n) (ofInt 2)
    let guard (sum rest : IndexExpr) :=
      IndexExpr.and (.compare .lt (.arith .add sum (ofInt 1)) rest)
        (.compare .eq (.arith .floorDiv (ofInt 1) (ofInt 0)) (.var n))
    let e := guard (.var m) (.arith .sub doubled (.var n))
    e.WellTyped ∧ e.simplify known = guard (ofInt 9223372036854775807) (.var n) ∧
      (e.simplify known).simplify known = e.simplify known := by
  intro n m known doubled guard e
  have he : e.WellTyped := by decide
  have hvalue : e.simplify known = guard (ofInt 9223372036854775807) (.var n) := by decide
  exact ⟨he, hvalue, (simplify_stable known e he).2.2⟩

/-- Where the element types of the operands differ, `0 + n * 2` is written with the type of the zero
at first and with that of `n` later. -/
example :
    let n : SymVar := ⟨0, "n", .int32⟩
    let e := IndexExpr.arith .add (ofInt 0) (.arith .mul (.var n) (.imm 2 .int32))
    (e.simplify []).simplify [] ≠ e.simplify [] := by
  decide

end IndexExpr

end TensorLowering
