import TensorLowering.Proofs.Index.Value
import Mathlib.Data.List.Induction

/-!
# Normal linear forms

Every linear form that is read off an expression is normal (`LinearForm.normal_of_ofExpr?`): its
terms stand in the order of their variables, no variable stands twice and none has the coefficient
zero. A normal form is determined by the coefficients of its variables, its constant and its element
type (`LinearForm.Normal.ext`).

A form is written as a sum that is read back as the same form, as long as the variables have the
element type of the form (`LinearForm.ofExpr?_toExpr`). What is shown of forms that are written out
follows the way they are written, one term after the other and the constant last
(`LinearForm.sum_induction`).

Reading a sum, a difference or a product gives up only where a number is met that does not fit into
a word. `LinearForm.exists_add?` and `LinearForm.exists_scale?` say which numbers these are: the
coefficients and the constant of the result, and where something is subtracted those of the
subtrahend with the sign turned around.
-/

namespace TensorLowering

/-! ### The order of variables -/

private theorem DataType.code_inj {t u : DataType} (h : t.code = u.code) : t = u := by
  cases t <;> cases u <;> simp only [code] at h
  case int.int | uint.uint | float.float => exact congrArg _ (UInt8.toNat_inj.mp (by omega))
  case bool.bool => rfl
  all_goals omega

namespace SymId

variable {i j l : SymId}

private theorem before_iff :
    i.before j = true ↔ i.lot < j.lot ∨ i.lot = j.lot ∧ i.draw < j.draw := by
  simp [before]

private theorem before_irrefl (i : SymId) : ¬i.before i = true := by
  simp [before_iff]

private theorem before_trans (h : i.before j = true) (h' : j.before l = true) :
    i.before l = true := by
  rw [before_iff] at *
  omega

/-- Of two numbers, one comes before the other. -/
private theorem eq_of_not_before (h : ¬i.before j = true) (h' : ¬j.before i = true) : i = j := by
  rw [before_iff] at h h'
  obtain ⟨lot, draw⟩ := i
  obtain ⟨lot', draw'⟩ := j
  rw [SymId.mk.injEq]
  dsimp only at h h'
  omega

end SymId

namespace SymVar

variable {u v w : SymVar}

private theorem before_iff : v.before w = true ↔ v.id.before w.id = true ∨ v.id = w.id ∧
    (v.name < w.name ∨ v.name = w.name ∧ v.dtype.code < w.dtype.code) := by
  simp [before]

private theorem before_irrefl (v : SymVar) : ¬v.before v = true := by
  simp [before_iff, SymId.before_irrefl]

private theorem before_trans (h : u.before v = true) (h' : v.before w = true) :
    u.before w = true := by
  rw [before_iff] at *
  obtain h | ⟨hid, h⟩ := h
  · obtain h' | ⟨hid', -⟩ := h'
    · exact Or.inl (SymId.before_trans h h')
    · exact Or.inl (hid' ▸ h)
  · obtain h' | ⟨hid', h'⟩ := h'
    · exact Or.inl (hid ▸ h')
    · refine Or.inr ⟨hid.trans hid', ?_⟩
      obtain h | ⟨hname, h⟩ := h
      · obtain h' | ⟨hname', -⟩ := h'
        · exact Or.inl (String.lt_trans h h')
        · exact Or.inl (hname' ▸ h)
      · obtain h' | ⟨hname', h'⟩ := h'
        · exact Or.inl (hname ▸ h')
        · exact Or.inr ⟨hname.trans hname', Nat.lt_trans h h'⟩

private theorem before_asymm (h : v.before w = true) : ¬w.before v = true :=
  fun h' => before_irrefl v (before_trans h h')

private theorem ne_of_before (h : v.before w = true) : v ≠ w := by
  rintro rfl
  exact before_irrefl v h

/-- Of two variables, one comes before the other. -/
private theorem before_or_before (h : v ≠ w) : v.before w = true ∨ w.before v = true := by
  by_contra hnot
  rw [not_or, before_iff, before_iff] at hnot
  have hid : v.id = w.id :=
    SymId.eq_of_not_before (fun h => hnot.1 (Or.inl h)) fun h => hnot.2 (Or.inl h)
  simp only [hid, SymId.before_irrefl, Bool.false_eq_true, true_and, false_or, not_or,
    String.not_lt] at hnot
  have hname : v.name = w.name := String.le_antisymm hnot.2.1 hnot.1.1
  simp only [hname, true_and] at hnot
  have hcode : v.dtype = w.dtype := DataType.code_inj (by omega)
  obtain ⟨i, name, dtype⟩ := v
  obtain ⟨j, name', dtype'⟩ := w
  simp_all

end SymVar

theorem inWord_zero : InWord 0 := by decide

private theorem wordOf?_of_inWord {n : Int} (h : InWord n) : wordOf? n = some n := if_pos h

namespace LinearForm

variable {a b form : LinearForm} {terms terms' others : List (SymVar × Int)} {term : SymVar × Int}
  {v w : SymVar} {c factor sign : Int}

/-! ### Coefficients -/

/-- The terms stand in the order of their variables, and no variable stands twice. -/
def Ordered (terms : List (SymVar × Int)) : Prop :=
  terms.Pairwise fun s t => s.1.before t.1 = true

/-- The coefficient of a variable: what the sum is when the variable is one and all others are
zero. -/
def coeff (terms : List (SymVar × Int)) (v : SymVar) : Int :=
  termsValue (fun w => if w = v then 1 else 0) terms

@[simp] theorem coeff_nil (v : SymVar) : coeff [] v = 0 := rfl

@[simp] theorem coeff_cons (term : SymVar × Int) (terms : List (SymVar × Int)) (v : SymVar) :
    coeff (term :: terms) v = (if term.1 = v then term.2 else 0) + coeff terms v := by
  by_cases h : term.1 = v <;> simp [coeff, h]

/-- A variable that does not occur has the coefficient zero. -/
theorem coeff_eq_zero (h : ∀ term ∈ terms, term.1 ≠ v) : coeff terms v = 0 := by
  induction terms with
  | nil => rfl
  | cons term terms ih =>
    rw [List.forall_mem_cons] at h
    rw [coeff_cons, if_neg h.1, ih h.2, zero_add]

private theorem Ordered.ne_of_mem (h : Ordered ((v, c) :: terms)) (hterm : term ∈ terms) :
    term.1 ≠ v :=
  (SymVar.ne_of_before (List.rel_of_pairwise_cons h hterm)).symm

private theorem Ordered.coeff_of_mem (h : Ordered terms) (hterm : term ∈ terms) :
    coeff terms term.1 = term.2 := by
  induction terms with
  | nil => exact absurd hterm List.not_mem_nil
  | cons first rest ih =>
    obtain rfl | hrest := List.mem_cons.mp hterm
    · rw [coeff_cons, if_pos rfl, coeff_eq_zero fun t ht => h.ne_of_mem ht, add_zero]
    · rw [coeff_cons, if_neg (h.ne_of_mem hrest).symm, ih h.of_cons hrest, zero_add]

/-- Terms with the coefficient zero may be left out. -/
theorem coeff_filter (terms : List (SymVar × Int)) (v : SymVar) :
    coeff (terms.filter (·.2 ≠ 0)) v = coeff terms v :=
  termsValue_filter _ terms

/-- Adding a term changes the coefficient of its variable and of no other. -/
private theorem coeff_addTerm? (h : addTerm? v c terms = some terms') (w : SymVar) :
    coeff terms' w = coeff terms w + if v = w then c else 0 := by
  rw [coeff, termsValue_addTerm? h]
  split <;> simp [coeff]

/-- Coefficients are added when terms are. -/
theorem coeff_addTerms? (h : addTerms? sign terms others = some terms') (v : SymVar) :
    coeff terms' v = coeff terms v + sign * coeff others v :=
  termsValue_addTerms? h

/-! ### The operations -/

/-- A term comes to lie among those that were there. -/
private theorem mem_addTerm? (h : addTerm? v c terms = some terms') (hterm : term ∈ terms') :
    term ∈ terms ∨ term.1 = v ∧ InWord term.2 := by
  induction terms generalizing terms' with
  | nil =>
    obtain ⟨c', hc, rfl⟩ := Option.map_eq_some_iff.mp h
    obtain ⟨hword, rfl⟩ := wordOf?_eq_some_iff.mp hc
    obtain rfl := List.mem_singleton.mp hterm
    exact Or.inr ⟨rfl, hword⟩
  | cons first rest ih =>
    obtain ⟨w, d⟩ := first
    simp only [addTerm?] at h
    split at h
    · next heq =>
      obtain ⟨e, he, rfl⟩ := Option.map_eq_some_iff.mp h
      obtain ⟨hword, rfl⟩ := wordOf?_eq_some_iff.mp he
      obtain rfl | hrest := List.mem_cons.mp hterm
      · exact Or.inr ⟨heq.symm, hword⟩
      · exact Or.inl (List.mem_cons_of_mem _ hrest)
    · split at h
      · obtain ⟨c', hc, rfl⟩ := Option.map_eq_some_iff.mp h
        obtain ⟨hword, rfl⟩ := wordOf?_eq_some_iff.mp hc
        obtain rfl | hrest := List.mem_cons.mp hterm
        · exact Or.inr ⟨rfl, hword⟩
        · exact Or.inl hrest
      · obtain ⟨rest', hrest', rfl⟩ := Option.map_eq_some_iff.mp h
        obtain rfl | hrest := List.mem_cons.mp hterm
        · exact Or.inl List.mem_cons_self
        · exact (ih hrest' hrest).imp_left (List.mem_cons_of_mem _)

private theorem Ordered.addTerm? (hord : Ordered terms) (h : addTerm? v c terms = some terms') :
    Ordered terms' := by
  induction terms generalizing terms' with
  | nil =>
    obtain ⟨c', -, rfl⟩ := Option.map_eq_some_iff.mp h
    exact List.pairwise_singleton _ _
  | cons first rest ih =>
    obtain ⟨w, d⟩ := first
    have hfirst : ∀ t ∈ rest, w.before t.1 = true := fun t ht => List.rel_of_pairwise_cons hord ht
    simp only [LinearForm.addTerm?] at h
    split at h
    · obtain ⟨e, -, rfl⟩ := Option.map_eq_some_iff.mp h
      exact List.pairwise_cons.mpr ⟨hfirst, hord.of_cons⟩
    · next hne =>
      split at h
      · next hbefore =>
        obtain ⟨c', -, rfl⟩ := Option.map_eq_some_iff.mp h
        refine List.pairwise_cons.mpr ⟨?_, hord⟩
        rw [List.forall_mem_cons]
        exact ⟨hbefore, fun t ht => SymVar.before_trans hbefore (hfirst t ht)⟩
      · next hbefore =>
        obtain ⟨rest', hrest, rfl⟩ := Option.map_eq_some_iff.mp h
        refine List.pairwise_cons.mpr ⟨fun t ht => ?_, ih hord.of_cons hrest⟩
        obtain ht | ⟨heq, -⟩ := mem_addTerm? hrest ht
        · exact hfirst t ht
        · rw [heq]
          exact (SymVar.before_or_before hne).resolve_left hbefore

/-- A term of a sum is one of the first terms, or its coefficient was computed and fits. -/
theorem mem_addTerms? (h : addTerms? sign terms others = some terms') (hterm : term ∈ terms') :
    term ∈ terms ∨ term.1 ∈ others.map Prod.fst ∧ InWord term.2 := by
  induction others generalizing terms with
  | nil =>
    obtain rfl := Option.some.inj h
    exact Or.inl hterm
  | cons other others ih =>
    obtain ⟨v, c⟩ := other
    obtain ⟨scaled, -, h⟩ := Option.bind_eq_some_iff.mp h
    obtain ⟨added, hadded, h⟩ := Option.bind_eq_some_iff.mp h
    obtain hmem | ⟨hmem, hword⟩ := ih h
    · exact (mem_addTerm? hadded hmem).imp_right fun h => ⟨by simp [h.1], h.2⟩
    · exact Or.inr ⟨List.mem_cons_of_mem _ hmem, hword⟩

private theorem Ordered.addTerms? (hord : Ordered terms)
    (h : addTerms? sign terms others = some terms') : Ordered terms' := by
  induction others generalizing terms with
  | nil =>
    obtain rfl := Option.some.inj h
    exact hord
  | cons other others ih =>
    obtain ⟨v, c⟩ := other
    obtain ⟨scaled, -, h⟩ := Option.bind_eq_some_iff.mp h
    obtain ⟨added, hadded, h⟩ := Option.bind_eq_some_iff.mp h
    exact ih (hord.addTerm? hadded) h

/-- Two forms have a sum just if all coefficients of it fit, the constant included. -/
theorem add?_eq_some_iff : a.add? b sign = some form ↔
    ∃ terms, addTerms? sign a.terms b.terms = some terms ∧ InWord (b.constant * sign) ∧
      InWord (a.constant + b.constant * sign) ∧
      form = ⟨terms.filter (·.2 ≠ 0), a.constant + b.constant * sign, a.dtype⟩ := by
  constructor
  · intro h
    obtain ⟨terms, hterms, h⟩ := Option.bind_eq_some_iff.mp h
    obtain ⟨shift, hshift, h⟩ := Option.bind_eq_some_iff.mp h
    obtain ⟨constant, hconstant, h⟩ := Option.bind_eq_some_iff.mp h
    obtain ⟨hword, rfl⟩ := wordOf?_eq_some_iff.mp hshift
    obtain ⟨hword', rfl⟩ := wordOf?_eq_some_iff.mp hconstant
    exact ⟨terms, hterms, hword, hword', (Option.some.inj h).symm⟩
  · rintro ⟨terms, hterms, hword, hword', rfl⟩
    simp [LinearForm.add?, hterms, wordOf?_of_inWord hword, wordOf?_of_inWord hword']

private theorem scaleTerms?_eq_some_iff : scaleTerms? factor terms = some terms' ↔
    (∀ term ∈ terms, InWord (term.2 * factor)) ∧
      terms' = terms.map fun term => (term.1, term.2 * factor) := by
  induction terms generalizing terms' with
  | nil => simp [scaleTerms?, eq_comm]
  | cons term rest ih =>
    obtain ⟨v, c⟩ := term
    constructor
    · intro h
      obtain ⟨c', hc, h⟩ := Option.bind_eq_some_iff.mp h
      obtain ⟨hword, rfl⟩ := wordOf?_eq_some_iff.mp hc
      obtain ⟨rest', hrest, h⟩ := Option.bind_eq_some_iff.mp h
      obtain ⟨hall, rfl⟩ := ih.mp hrest
      exact ⟨List.forall_mem_cons.mpr ⟨hword, hall⟩, (Option.some.inj h).symm⟩
    · rintro ⟨hall, rfl⟩
      rw [List.forall_mem_cons] at hall
      simp [scaleTerms?, wordOf?_of_inWord hall.1, ih.mpr ⟨hall.2, rfl⟩]

private theorem scale?_eq_some_iff (hfactor : factor ≠ 0) : a.scale? factor = some form ↔
    (∀ term ∈ a.terms, InWord (term.2 * factor)) ∧ InWord (a.constant * factor) ∧
      form = ⟨a.terms.map fun term => (term.1, term.2 * factor), a.constant * factor, a.dtype⟩ := by
  rw [LinearForm.scale?, if_neg hfactor]
  constructor
  · intro h
    obtain ⟨terms, hterms, h⟩ := Option.bind_eq_some_iff.mp h
    obtain ⟨constant, hconstant, h⟩ := Option.bind_eq_some_iff.mp h
    obtain ⟨hall, rfl⟩ := scaleTerms?_eq_some_iff.mp hterms
    obtain ⟨hword, rfl⟩ := wordOf?_eq_some_iff.mp hconstant
    exact ⟨hall, hword, (Option.some.inj h).symm⟩
  · rintro ⟨hall, hword, rfl⟩
    simp [scaleTerms?_eq_some_iff.mpr ⟨hall, rfl⟩, wordOf?_of_inWord hword]

/-- A multiple is zero, or all coefficients were multiplied and fit. -/
theorem scale?_cases (h : a.scale? factor = some form) :
    form = ofConst 0 a.dtype ∨ factor ≠ 0 ∧ (∀ term ∈ a.terms, InWord (term.2 * factor)) ∧
      InWord (a.constant * factor) ∧
      form = ⟨a.terms.map fun term => (term.1, term.2 * factor), a.constant * factor, a.dtype⟩ := by
  by_cases hfactor : factor = 0
  · rw [LinearForm.scale?, if_pos hfactor] at h
    exact Or.inl (Option.some.inj h).symm
  · exact Or.inr ⟨hfactor, (scale?_eq_some_iff hfactor).mp h⟩

/-- A product is a multiple by the factor that is constant. -/
theorem mul?_cases (h : a.mul? b = some form) :
    (∃ n, a.const? = some n ∧ b.scale? n = some form) ∨
      (∃ n, b.const? = some n ∧ a.scale? n = some form) := by
  unfold LinearForm.mul? at h
  split at h
  · next n hn => exact Or.inl ⟨n, hn, h⟩
  · next n _ hn => exact Or.inr ⟨n, hn, h⟩
  · cases h

/-- The form that is read off an expression, as a relation: what it is to be linear on its face. -/
inductive ReadOff : IndexExpr → LinearForm → Prop where
  | imm {n : Int} {t : DataType} : t.isInt = true → ReadOff (.imm n t) (ofConst n t)
  | var {v : SymVar} : v.dtype.isInt = true → ReadOff (.var v) (ofVar v)
  | add {lhs rhs : IndexExpr} {a b form : LinearForm} : ReadOff lhs a → ReadOff rhs b →
      a.add? b 1 = some form → ReadOff (.arith .add lhs rhs) form
  | sub {lhs rhs : IndexExpr} {a b form : LinearForm} : ReadOff lhs a → ReadOff rhs b →
      a.add? b (-1) = some form → ReadOff (.arith .sub lhs rhs) form
  | mul {lhs rhs : IndexExpr} {a b form : LinearForm} : ReadOff lhs a → ReadOff rhs b →
      a.mul? b = some form → ReadOff (.arith .mul lhs rhs) form

/-- What is read off an expression is read off along its structure. -/
theorem readOff_of_ofExpr? {e : IndexExpr} (h : ofExpr? e = some form) : ReadOff e form := by
  induction e generalizing form with
  | imm n t =>
    simp only [ofExpr?] at h
    split at h
    · next ht =>
      obtain rfl := Option.some.inj h
      exact .imm ht
    · cases h
  | var v =>
    simp only [ofExpr?] at h
    split at h
    · next hv =>
      obtain rfl := Option.some.inj h
      exact .var hv
    · cases h
  | arith op lhs rhs ihl ihr =>
    cases op with
    | add =>
      obtain ⟨a, ha, h⟩ := Option.bind_eq_some_iff.mp h
      obtain ⟨b, hb, h⟩ := Option.bind_eq_some_iff.mp h
      exact .add (ihl ha) (ihr hb) h
    | sub =>
      obtain ⟨a, ha, h⟩ := Option.bind_eq_some_iff.mp h
      obtain ⟨b, hb, h⟩ := Option.bind_eq_some_iff.mp h
      exact .sub (ihl ha) (ihr hb) h
    | mul =>
      obtain ⟨a, ha, h⟩ := Option.bind_eq_some_iff.mp h
      obtain ⟨b, hb, h⟩ := Option.bind_eq_some_iff.mp h
      exact .mul (ihl ha) (ihr hb) h
    | floorDiv | floorMod | min | max => cases h
  | unknown | compare | and | or | not => cases h

/-- A form is only read off where nothing is unknown. -/
theorem hasUnknown_of_ofExpr? {e : IndexExpr} (h : ofExpr? e = some form) :
    e.hasUnknown = false := by
  replace h := readOff_of_ofExpr? h
  induction h with
  | imm | var => rfl
  | add _ _ _ ihl ihr | sub _ _ _ ihl ihr | mul _ _ _ ihl ihr =>
    simp [IndexExpr.hasUnknown, ihl, ihr]

/-! ### Normal forms -/

/-- The form of a number, or a form with ordered terms, none of them zero, and all its numbers
within words. -/
structure Normal (a : LinearForm) : Prop where
  ordered : Ordered a.terms
  nonzero : ∀ term ∈ a.terms, term.2 ≠ 0
  inWord : ∀ term ∈ a.terms, InWord term.2
  constant : a.terms = [] ∨ InWord a.constant

/-- A constant has a normal form. -/
theorem normal_ofConst (n : Int) (t : DataType) : (ofConst n t).Normal :=
  ⟨List.Pairwise.nil, nofun, nofun, Or.inl rfl⟩

/-- A variable has a normal form. -/
theorem normal_ofVar (v : SymVar) : (ofVar v).Normal := by
  have hone : InWord 1 := by decide
  refine ⟨List.pairwise_singleton _ _, ?_, ?_, Or.inr inWord_zero⟩
  · simp [ofVar]
  · exact List.forall_mem_singleton.mpr hone

/-- A sum with a normal form is normal. -/
theorem Normal.add? (ha : a.Normal) (h : a.add? b sign = some form) : form.Normal := by
  obtain ⟨terms, hterms, -, hconstant, rfl⟩ := add?_eq_some_iff.mp h
  refine ⟨(ha.ordered.addTerms? hterms).filter _, fun term ht => ?_, fun term ht => ?_,
    Or.inr hconstant⟩
  · simpa using (List.mem_filter.mp ht).2
  · obtain hmem | hmem := mem_addTerms? hterms (List.mem_of_mem_filter ht)
    · exact ha.inWord term hmem
    · exact hmem.2

/-- A multiple of a normal form is normal. -/
theorem Normal.scale? (ha : a.Normal) (h : a.scale? factor = some form) : form.Normal := by
  obtain rfl | ⟨hfactor, hall, hconstant, rfl⟩ := scale?_cases h
  · exact normal_ofConst 0 a.dtype
  · refine ⟨List.pairwise_map.mpr ha.ordered, ?_, ?_, Or.inr hconstant⟩
    · simp only [List.forall_mem_map]
      exact fun term ht => mul_ne_zero (ha.nonzero term ht) hfactor
    · simpa only [List.forall_mem_map] using hall

private theorem Normal.mul? (ha : a.Normal) (hb : b.Normal) (h : a.mul? b = some form) :
    form.Normal := by
  obtain ⟨n, -, h⟩ | ⟨n, -, h⟩ := mul?_cases h
  · exact hb.scale? h
  · exact ha.scale? h

/-- **What is read off an expression is normal.** -/
theorem normal_of_ofExpr? {e : IndexExpr} (h : ofExpr? e = some form) : form.Normal := by
  replace h := readOff_of_ofExpr? h
  induction h with
  | imm => exact normal_ofConst _ _
  | var => exact normal_ofVar _
  | add _ _ hadd ih | sub _ _ hadd ih => exact ih.add? hadd
  | mul _ _ hmul ihl ihr => exact ihl.mul? ihr hmul

private theorem Normal.mem_iff (h : a.Normal) : (v, c) ∈ a.terms ↔ c ≠ 0 ∧ coeff a.terms v = c := by
  constructor
  · intro hmem
    exact ⟨h.nonzero _ hmem, h.ordered.coeff_of_mem hmem⟩
  · rintro ⟨hne, rfl⟩
    -- a coefficient that is not zero comes from a term
    have hex : ∃ term ∈ a.terms, term.1 = v := by
      by_contra hnot
      exact hne (coeff_eq_zero fun term ht heq => hnot ⟨term, ht, heq⟩)
    obtain ⟨term, ht, rfl⟩ := hex
    rw [h.ordered.coeff_of_mem ht]
    exact ht

/-- A form all of whose coefficients are zero has no terms. -/
theorem Normal.terms_eq_nil (ha : a.Normal) (h : ∀ v, coeff a.terms v = 0) : a.terms = [] := by
  rw [List.eq_nil_iff_forall_not_mem]
  intro term hterm
  exact ha.nonzero term hterm ((ha.ordered.coeff_of_mem hterm).symm.trans (h term.1))

/-- The coefficients of a normal form are words. -/
private theorem Normal.coeff_inWord (ha : a.Normal) (v : SymVar) : InWord (coeff a.terms v) := by
  by_cases hzero : coeff a.terms v = 0
  · rw [hzero]
    exact inWord_zero
  · exact ha.inWord _ (ha.mem_iff.mpr ⟨hzero, rfl⟩)

/-- **Normal forms are canonical**: the coefficients, the constant and the element type determine
them. -/
theorem Normal.ext (ha : a.Normal) (hb : b.Normal) (hcoeff : ∀ v, coeff a.terms v = coeff b.terms v)
    (hconstant : a.constant = b.constant) (hdtype : a.dtype = b.dtype) : a = b := by
  have hnodup {form : LinearForm} (h : form.Normal) : form.terms.Nodup :=
    h.ordered.imp fun hbefore heq => SymVar.ne_of_before hbefore (congrArg Prod.fst heq)
  have hperm : a.terms.Perm b.terms := by
    rw [List.perm_ext_iff_of_nodup (hnodup ha) (hnodup hb)]
    rintro ⟨v, c⟩
    rw [ha.mem_iff, hb.mem_iff, hcoeff]
  have hterms : a.terms = b.terms :=
    hperm.eq_of_pairwise (fun _ _ _ _ h h' => absurd h' (SymVar.before_asymm h))
      ha.ordered hb.ordered
  obtain ⟨terms, constant, dtype⟩ := a
  simp_all

/-! ### Where the operations have a result -/

private theorem exists_addTerm? (hord : Ordered terms) (h : InWord (coeff terms v + c)) :
    ∃ terms', addTerm? v c terms = some terms' := by
  induction terms with
  | nil =>
    rw [coeff_nil, zero_add] at h
    exact ⟨[(v, c)], by simp [addTerm?, wordOf?_of_inWord h]⟩
  | cons first rest ih =>
    obtain ⟨w, d⟩ := first
    by_cases heq : v = w
    · subst heq
      have hrest : coeff rest v = 0 := coeff_eq_zero fun t ht => hord.ne_of_mem ht
      rw [coeff_cons, if_pos rfl, hrest, add_zero] at h
      exact ⟨(v, d + c) :: rest, by simp [addTerm?, wordOf?_of_inWord h]⟩
    · by_cases hbefore : v.before w = true
      · have hall : ∀ t ∈ (w, d) :: rest, t.1 ≠ v := by
          rw [List.forall_mem_cons]
          refine ⟨Ne.symm heq, fun t ht => ?_⟩
          exact (SymVar.ne_of_before
            (SymVar.before_trans hbefore (List.rel_of_pairwise_cons hord ht))).symm
        rw [coeff_eq_zero hall, zero_add] at h
        exact ⟨(v, c) :: (w, d) :: rest, by simp [addTerm?, heq, hbefore, wordOf?_of_inWord h]⟩
      · rw [coeff_cons, if_neg (Ne.symm heq), zero_add] at h
        obtain ⟨rest', hrest⟩ := ih hord.of_cons h
        exact ⟨(w, d) :: rest', by simp [addTerm?, heq, hbefore, hrest]⟩

private theorem exists_addTerms? (hord : Ordered terms) (hothers : Ordered others)
    (h : ∀ term ∈ others, InWord (term.2 * sign) ∧ InWord (coeff terms term.1 + term.2 * sign)) :
    ∃ terms', addTerms? sign terms others = some terms' := by
  induction others generalizing terms with
  | nil => exact ⟨terms, rfl⟩
  | cons other others ih =>
    obtain ⟨v, c⟩ := other
    rw [List.forall_mem_cons] at h
    obtain ⟨⟨hword, hsum⟩, hrest⟩ := h
    obtain ⟨added, hadded⟩ := exists_addTerm? hord hsum
    -- no later term is of the variable that was added, so its coefficient is still the old one
    have hlater : ∀ term ∈ others,
        InWord (term.2 * sign) ∧ InWord (coeff added term.1 + term.2 * sign) := by
      intro term hterm
      rw [coeff_addTerm? hadded, if_neg (hothers.ne_of_mem hterm).symm, add_zero]
      exact hrest term hterm
    obtain ⟨terms', hterms'⟩ := ih (hord.addTerm? hadded) hothers.of_cons hlater
    exact ⟨terms', by simp [addTerms?, wordOf?_of_inWord hword, hadded, hterms']⟩

/-- A sum has a form if its coefficients and its constant fit into words, and those of the second
summand with its sign do. -/
theorem exists_add? (ha : a.Normal) (hb : b.Normal)
    (hcoeff : ∀ v, InWord (sign * coeff b.terms v) ∧
      InWord (coeff a.terms v + sign * coeff b.terms v))
    (hconstant : InWord (sign * b.constant) ∧ InWord (a.constant + sign * b.constant)) :
    ∃ form, a.add? b sign = some form := by
  have hterms : ∀ term ∈ b.terms,
      InWord (term.2 * sign) ∧ InWord (coeff a.terms term.1 + term.2 * sign) := by
    intro term hterm
    have h := hcoeff term.1
    rw [hb.ordered.coeff_of_mem hterm, mul_comm] at h
    exact h
  obtain ⟨terms, hadded⟩ := exists_addTerms? ha.ordered hb.ordered hterms
  rw [mul_comm] at hconstant
  exact ⟨_, add?_eq_some_iff.mpr ⟨terms, hadded, hconstant.1, hconstant.2, rfl⟩⟩

/-- A multiple has a form if its coefficients and its constant fit into words. -/
theorem exists_scale? (ha : a.Normal) (hcoeff : ∀ v, InWord (factor * coeff a.terms v))
    (hconstant : InWord (factor * a.constant)) : ∃ form, a.scale? factor = some form := by
  by_cases hfactor : factor = 0
  · exact ⟨ofConst 0 a.dtype, if_pos hfactor⟩
  · have hall : ∀ term ∈ a.terms, InWord (term.2 * factor) := by
      intro term hterm
      have h := hcoeff term.1
      rwa [ha.ordered.coeff_of_mem hterm, mul_comm] at h
    rw [mul_comm] at hconstant
    exact ⟨_, (scale?_eq_some_iff hfactor).mpr ⟨hall, hconstant, rfl⟩⟩

private theorem inWord_of_addTerms? (h : addTerms? sign terms others = some terms') :
    ∀ term ∈ others, InWord (term.2 * sign) := by
  induction others generalizing terms with
  | nil => exact fun term hterm => absurd hterm List.not_mem_nil
  | cons other others ih =>
    obtain ⟨v, c⟩ := other
    obtain ⟨scaled, hscaled, h⟩ := Option.bind_eq_some_iff.mp h
    obtain ⟨added, -, h⟩ := Option.bind_eq_some_iff.mp h
    exact List.forall_mem_cons.mpr ⟨(wordOf?_eq_some_iff.mp hscaled).1, ih h⟩

/-- The coefficients of a sum are the sums of the coefficients. -/
theorem coeff_add? (h : a.add? b sign = some form) (v : SymVar) :
    coeff form.terms v = coeff a.terms v + sign * coeff b.terms v := by
  obtain ⟨terms, hterms, -, -, rfl⟩ := add?_eq_some_iff.mp h
  rw [coeff_filter, coeff_addTerms? hterms]

/-- Conversely, if a sum has a form, the numbers that are met are words. -/
theorem inWord_of_add? (ha : a.Normal) (hb : b.Normal) (h : a.add? b sign = some form) :
    (∀ v, InWord (sign * coeff b.terms v) ∧ InWord (coeff a.terms v + sign * coeff b.terms v)) ∧
      InWord (sign * b.constant) ∧ InWord (a.constant + sign * b.constant) := by
  obtain ⟨terms, hterms, hshift, hconstant, -⟩ := add?_eq_some_iff.mp h
  rw [mul_comm] at hshift hconstant
  refine ⟨fun v => ⟨?_, ?_⟩, hshift, hconstant⟩
  · by_cases hzero : coeff b.terms v = 0
    · rw [hzero, mul_zero]
      exact inWord_zero
    · rw [mul_comm]
      exact inWord_of_addTerms? hterms _ (hb.mem_iff.mpr ⟨hzero, rfl⟩)
  · rw [← coeff_add? h]
    exact (ha.add? h).coeff_inWord v

/-- The coefficients of a multiple are multiplied. -/
theorem coeff_scale? (h : a.scale? factor = some form) (v : SymVar) :
    coeff form.terms v = factor * coeff a.terms v := by
  by_cases hfactor : factor = 0
  · rw [LinearForm.scale?, if_pos hfactor] at h
    obtain rfl := Option.some.inj h
    rw [hfactor, zero_mul]
    rfl
  · obtain ⟨hall, -, rfl⟩ := (scale?_eq_some_iff hfactor).mp h
    exact termsValue_scaleTerms? (scaleTerms?_eq_some_iff.mpr ⟨hall, rfl⟩)

/-- So is its constant. -/
theorem constant_scale? (h : a.scale? factor = some form) :
    form.constant = factor * a.constant := by
  by_cases hfactor : factor = 0
  · rw [LinearForm.scale?, if_pos hfactor] at h
    obtain rfl := Option.some.inj h
    rw [hfactor, zero_mul]
    rfl
  · obtain ⟨-, -, rfl⟩ := (scale?_eq_some_iff hfactor).mp h
    exact mul_comm _ _

/-- Conversely, if a multiple has a form, its coefficients and its constant are words. -/
theorem inWord_of_scale? (ha : a.Normal) (h : a.scale? factor = some form) :
    (∀ v, InWord (factor * coeff a.terms v)) ∧ InWord (factor * a.constant) := by
  constructor
  · intro v
    rw [← coeff_scale? h]
    exact (ha.scale? h).coeff_inWord v
  · obtain rfl | ⟨-, -, hconstant, rfl⟩ := scale?_cases h
    · rw [← constant_scale? h]
      exact inWord_zero
    · rwa [mul_comm]

/-! ### Writing and reading -/

section

variable {t : DataType} {k : Int}

/-- The last term is added to what was written before. -/
theorem toExpr_concat (hne : terms ≠ []) (term : SymVar × Int) :
    toExpr ⟨terms ++ [term], 0, t⟩ = .arith .add (toExpr ⟨terms, 0, t⟩) (termExpr t term) := by
  obtain ⟨first, rest, rfl⟩ := List.exists_cons_of_ne_nil hne
  simp [toExpr, sumFrom]

/-- A constant that is not zero is added to the terms. -/
theorem toExpr_shift (hne : terms ≠ []) (hk : k ≠ 0) :
    toExpr ⟨terms, k, t⟩ = .arith .add (toExpr ⟨terms, 0, t⟩) (.imm k t) := by
  obtain ⟨first, rest, rfl⟩ := List.exists_cons_of_ne_nil hne
  simp [toExpr, hk]

/-- **How a form is written**: a number alone, or one term after the other and then the constant,
unless it is zero. -/
theorem sum_induction {P : LinearForm → Prop} (number : ∀ k t, P ⟨[], k, t⟩)
    (single : ∀ term t, P ⟨[term], 0, t⟩)
    (concat : ∀ terms term t, terms ≠ [] → P ⟨terms, 0, t⟩ → P ⟨terms ++ [term], 0, t⟩)
    (shift : ∀ terms k t, terms ≠ [] → k ≠ 0 → P ⟨terms, 0, t⟩ → P ⟨terms, k, t⟩)
    (a : LinearForm) : P a := by
  obtain ⟨terms, k, t⟩ := a
  by_cases hne : terms = []
  · subst hne
    exact number k t
  · have hsum : P ⟨terms, 0, t⟩ := by
      induction terms using List.reverseRecOn with
      | nil => exact number 0 t
      | append_singleton terms term ih =>
        by_cases hnil : terms = []
        · subst hnil
          exact single term t
        · exact concat terms term t hnil (ih hnil)
    by_cases hk : k = 0
    · subst hk
      exact hsum
    · exact shift terms k t hne hk hsum

end

/-- All variables have the element type of the form, and linear arithmetic is done in it. -/
structure Typed (a : LinearForm) : Prop where
  isInt : a.dtype.isInt = true
  dtype : ∀ term ∈ a.terms, term.1.dtype = a.dtype

/-- A term behind all others is put at the end. -/
private theorem addTerm?_concat (h : ∀ term ∈ terms, term.1.before v = true) (hc : InWord c) :
    addTerm? v c terms = some (terms ++ [(v, c)]) := by
  induction terms with
  | nil => simp [addTerm?, wordOf?_of_inWord hc]
  | cons term rest ih =>
    rw [List.forall_mem_cons] at h
    have hne : v ≠ term.1 := (SymVar.ne_of_before h.1).symm
    simp [addTerm?, hne, SymVar.before_asymm h.1, ih h.2]

/-- The first terms of a normal form are those of one. -/
theorem Normal.of_append {t : DataType} {k : Int} (h : Normal ⟨terms ++ others, k, t⟩) :
    Normal ⟨terms, 0, t⟩ :=
  ⟨(List.pairwise_append.mp h.ordered).1, fun term hterm => h.nonzero term (by simp [hterm]),
    fun term hterm => h.inWord term (by simp [hterm]), Or.inr inWord_zero⟩

private theorem Normal.filter_terms (ha : a.Normal) : a.terms.filter (·.2 ≠ 0) = a.terms :=
  List.filter_eq_self.mpr fun term hterm => by simpa using ha.nonzero term hterm

/-- Adding the last term of a sum to the others. -/
private theorem add?_term {t u : DataType} (h : Normal ⟨terms ++ [(v, c)], 0, t⟩) :
    add? ⟨terms, 0, t⟩ ⟨[(v, c)], 0, u⟩ 1 = some ⟨terms ++ [(v, c)], 0, t⟩ := by
  have hbefore : ∀ term ∈ terms, term.1.before v = true := fun term hterm =>
    (List.pairwise_append.mp h.ordered).2.2 term hterm _ List.mem_cons_self
  have hword : InWord c := h.inWord (v, c) (by simp)
  have hterms : addTerms? 1 terms [(v, c)] = some (terms ++ [(v, c)]) := by
    simp [addTerms?, wordOf?_of_inWord hword, addTerm?_concat hbefore hword]
  refine add?_eq_some_iff.mpr ⟨_, hterms, inWord_zero, inWord_zero, ?_⟩
  rw [h.filter_terms]
  rfl

/-- Adding the constant to a sum. -/
private theorem add?_constant {t u : DataType} {k : Int} (h : Normal ⟨terms, k, t⟩)
    (hne : terms ≠ []) : add? ⟨terms, 0, t⟩ ⟨[], k, u⟩ 1 = some ⟨terms, k, t⟩ := by
  have hword : InWord k := h.constant.resolve_left hne
  refine add?_eq_some_iff.mpr ⟨terms, rfl, ?_, ?_, ?_⟩
  · simpa only [mul_one] using hword
  · simpa only [mul_one, zero_add] using hword
  · rw [h.filter_terms, mul_one, zero_add]

private theorem ofExpr?_termExpr {t : DataType} (ht : t.isInt = true) (hv : v.dtype = t)
    (hc : c ≠ 0) (hword : InWord c) : ofExpr? (termExpr t (v, c)) = some ⟨[(v, c)], 0, t⟩ := by
  subst hv
  by_cases hone : c = 1
  · subst hone
    simp [termExpr, ofExpr?, ht, ofVar]
  · have hscale : (ofVar v).scale? c = some ⟨[(v, c)], 0, v.dtype⟩ := by
      refine (scale?_eq_some_iff hc).mpr ⟨?_, ?_, ?_⟩
      · exact List.forall_mem_singleton.mpr (by simpa only [one_mul] using hword)
      · exact (zero_mul c).symm ▸ inWord_zero
      · simp [ofVar]
    simpa [termExpr, hone, ofExpr?, ht, mul?, const?, ofVar, ofConst] using hscale

/-- **What is written is read back.** -/
theorem ofExpr?_toExpr (ha : a.Normal) (ht : a.Typed) : ofExpr? a.toExpr = some a := by
  induction a using sum_induction with
  | number k t => simp [toExpr, ofExpr?, ofConst, ht.isInt]
  | single term t =>
    obtain ⟨v, c⟩ := term
    have hmem : (v, c) ∈ [(v, c)] := List.mem_cons_self
    exact ofExpr?_termExpr ht.isInt (ht.dtype _ hmem) (ha.nonzero _ hmem) (ha.inWord _ hmem)
  | concat terms term t hne ih =>
    obtain ⟨v, c⟩ := term
    have hmem : (v, c) ∈ terms ++ [(v, c)] := by simp
    have hterms := ih ha.of_append ⟨ht.isInt, fun term h => ht.dtype term (by simp [h])⟩
    have hterm := ofExpr?_termExpr ht.isInt (ht.dtype _ hmem) (ha.nonzero _ hmem) (ha.inWord _ hmem)
    simp only [toExpr_concat hne, ofExpr?, hterms, hterm, Option.bind_eq_bind, Option.bind_some]
    exact add?_term ha
  | shift terms k t hne hk ih =>
    have hint : t.isInt = true := ht.isInt
    have hterms := ih ⟨ha.ordered, ha.nonzero, ha.inWord, Or.inr inWord_zero⟩ ⟨hint, ht.dtype⟩
    simp only [toExpr_shift hne hk, ofExpr?, hterms, hint, if_true, Option.bind_eq_bind,
      Option.bind_some]
    exact add?_constant ha hne

end LinearForm

end TensorLowering
