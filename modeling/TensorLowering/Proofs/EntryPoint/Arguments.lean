import TensorLowering.Engine
import TensorLowering.Proofs.Index.Completeness

/-!
# The arguments of an entry point

An argument fits an input under an assignment of integers to the symbolic variables if it has the
element type and the number of dimensions of the input, all its dimensions are immediates, and each
of them is what the dimension of the input says, if that is an immediate or a variable
(`Tensor.Fits`). An entry point accepts arguments just if one assignment makes all of them fit
(`EntryPoint.call_accepts`). It looks for this assignment on the way: it binds a variable where it
meets it for the first time.

What is demanded of the arguments is a list of checks, in the order in which they are made
(`EntryPoint.checks`). A check demands something of the values of the variables. The values that are
bound at some point solve the checks made so far (`Bindings.Solves`): the assignments that agree
with them are those that meet these checks. So a check fails only if no assignment meets it together
with those before it, and the mismatch that is reported is that of the first one of this kind
(`FirstUnmet`).
-/

namespace TensorLowering

variable {σ : Type}

/-! ### Arguments that fit -/

/-- What a dimension of an input demands of the extent of an argument: a number has to be the
extent and a variable has to stand for it. -/
def IndexExpr.Admits (ρ : SymVar → Int) (n : Int) : IndexExpr → Prop
  | .imm k _ => k = n
  | .var v => ρ v = n
  | .unknown | .arith .. | .compare .. | .and .. | .or .. | .not _ => True

/-- An argument fits an input when the variables stand for the values of `ρ`. -/
structure Tensor.Fits (ρ : SymVar → Int) (input actual : Tensor) : Prop where
  dtype : input.dtype = actual.dtype
  shape : List.Forall₂ (fun expected dim => ∃ n t, dim = .imm n t ∧ expected.Admits ρ n)
    input.shape actual.shape

/-- The variable is a dimension of one of the inputs. -/
def PlainIn (inputs : List Tensor) (v : SymVar) : Prop := ∃ t ∈ inputs, IndexExpr.var v ∈ t.shape

section

variable {ρ ρ' : SymVar → Int} {inputs actuals : List Tensor} {input actual : Tensor} {v : SymVar}

private theorem IndexExpr.Admits.congr {e : IndexExpr} {n : Int} (h : e.Admits ρ n)
    (hρ : ∀ v, e = .var v → ρ v = ρ' v) : e.Admits ρ' n := by
  cases e with
  | var v => exact (hρ v rfl).symm.trans h
  | imm | unknown | arith | compare | and | or | not => exact h

private theorem Tensor.Fits.congr (h : input.Fits ρ actual)
    (hρ : ∀ v, IndexExpr.var v ∈ input.shape → ρ v = ρ' v) : input.Fits ρ' actual := by
  have hdims : ∀ e ∈ input.shape, ∀ v, e = .var v → ρ v = ρ' v := by
    rintro e he v rfl
    exact hρ v he
  refine ⟨h.dtype, ((List.forall₂_and_left _ _).mpr ⟨hdims, h.shape⟩).imp ?_⟩
  rintro e dim ⟨he, n, t, hn, hadmits⟩
  exact ⟨n, t, hn, hadmits.congr he⟩

/-- Only what the variables stand for that are dimensions of inputs counts. -/
private theorem forall₂_fits_congr (h : List.Forall₂ (Tensor.Fits ρ) inputs actuals)
    (hρ : ∀ v, PlainIn inputs v → ρ v = ρ' v) : List.Forall₂ (Tensor.Fits ρ') inputs actuals := by
  have hinputs : ∀ t ∈ inputs, ∀ v, IndexExpr.var v ∈ t.shape → ρ v = ρ' v :=
    fun t ht v hv => hρ v ⟨t, ht, hv⟩
  refine ((List.forall₂_and_left _ _).mpr ⟨hinputs, h⟩).imp ?_
  rintro t u ⟨ht, hfits⟩
  exact hfits.congr ht

private theorem Tensor.Fits.eq_of_mem (h : input.Fits ρ actual) (h' : input.Fits ρ' actual)
    (hv : IndexExpr.var v ∈ input.shape) : ρ v = ρ' v := by
  have hdims : List.Forall₂ (fun e _ => (e = .var v → ρ v = ρ' v) ∧ True) input.shape
      actual.shape := by
    refine h.shape.mp ?_ h'.shape
    rintro e _ ⟨n, t, rfl, hadmits⟩ ⟨n', t', heq, hadmits'⟩
    obtain ⟨rfl, -⟩ := IndexExpr.imm.inj heq
    refine ⟨?_, trivial⟩
    rintro rfl
    exact Eq.trans hadmits hadmits'.symm
  exact ((List.forall₂_and_left _ _).mp hdims).1 _ hv rfl

/-- What a variable stands for is determined by arguments that fit, if it is a dimension of an
input. -/
private theorem eq_of_forall₂_fits (h : List.Forall₂ (Tensor.Fits ρ) inputs actuals)
    (h' : List.Forall₂ (Tensor.Fits ρ') inputs actuals) (hv : PlainIn inputs v) : ρ v = ρ' v := by
  obtain ⟨t, ht, hvar⟩ := hv
  have hinputs : List.Forall₂ (fun input _ => (IndexExpr.var v ∈ input.shape → ρ v = ρ' v) ∧ True)
      inputs actuals :=
    h.mp (fun _ _ hfits hfits' => ⟨fun hmem => hfits.eq_of_mem hfits' hmem, trivial⟩) h'
  exact ((List.forall₂_and_left _ _).mp hinputs).1 t ht hvar

end

/-! ### Checks -/

/-- A check: what it demands of the values of the variables, and the mismatch that is reported if
this is not met. -/
structure Check where
  demand : (SymVar → Int) → Prop
  mismatch : Mismatch

/-- The values meet all demands. -/
def Meets (cs : List Check) (ρ : SymVar → Int) : Prop := ∀ c ∈ cs, c.demand ρ

/-- The mismatch is that of the first check that no values meet together with those before it. -/
def FirstUnmet (cs : List Check) (why : Mismatch) : Prop :=
  ∃ before c after, cs = before ++ c :: after ∧ (∃ ρ, Meets before ρ) ∧
    (∀ ρ, Meets before ρ → ¬c.demand ρ) ∧ why = c.mismatch

namespace EntryPoint

/-- The checks of the dimensions of an input against the extents of an argument, from an axis on. -/
def extentChecks (argument axis : Nat) : List IndexExpr → List Int → List Check
  | expected :: dims, actual :: extents =>
    ⟨fun ρ => expected.Admits ρ actual, .extent argument axis actual expected⟩
      :: extentChecks argument (axis + 1) dims extents
  | [], _ | _, [] => []

/-- The checks of an argument: its element type, whether its extents are known, how many there are,
and each one of them. -/
def argumentChecks (argument : Nat) (input actual : Tensor) : List Check :=
  ⟨fun _ => input.dtype = actual.dtype, .dtype argument actual.dtype input.dtype⟩
    :: ⟨fun _ => actual.extents? ≠ none, .symbolic argument⟩
    :: match actual.extents? with
      | none => []
      | some extents =>
        ⟨fun _ => extents.length = input.rank, .rank argument extents.length input.rank⟩
          :: extentChecks argument 0 input.shape extents

/-- The checks of the arguments from one on. -/
def checksFrom (argument : Nat) : List Tensor → List Tensor → List Check
  | input :: inputs, actual :: actuals =>
    argumentChecks argument input actual ++ checksFrom (argument + 1) inputs actuals
  | [], _ | _, [] => []

/-- All checks: that of the number of arguments, then those of the arguments in order. -/
def checks (inputs actuals : List Tensor) : List Check :=
  ⟨fun _ => inputs.length = actuals.length, .count inputs.length actuals.length⟩
    :: checksFrom 0 inputs actuals

end EntryPoint

/-! ### What the checks demand -/

section

variable {ρ : SymVar → Int} {c : Check} {cs ds : List Check}

private theorem meets_cons : Meets (c :: cs) ρ ↔ c.demand ρ ∧ Meets cs ρ := List.forall_mem_cons

private theorem meets_append : Meets (cs ++ ds) ρ ↔ Meets cs ρ ∧ Meets ds ρ :=
  List.forall_mem_append

private theorem meets_nil : Meets [] ρ := fun _ h => absurd h List.not_mem_nil

private theorem meets_concat : Meets (cs ++ [c]) ρ ↔ Meets cs ρ ∧ c.demand ρ := by
  rw [meets_append, meets_cons, and_iff_left meets_nil]

private theorem Tensor.extents?_eq_some_iff {t : Tensor} {ns : List Int} :
    t.extents? = some ns ↔ List.Forall₂ (fun dim n => ∃ u, dim = .imm n u) t.shape ns := by
  unfold extents?
  generalize t.shape = shape
  induction shape generalizing ns with
  | nil => simp [eq_comm]
  | cons e es ih =>
    have hvalue (n : Int) : e.value? = some n ↔ ∃ u, e = .imm n u := by
      cases e <;> simp [IndexExpr.value?]
    simp only [List.mapM_cons, Option.bind_eq_bind, Option.bind_eq_some_iff, hvalue, ih,
      Option.pure_def, Option.some.injEq, List.forall₂_cons_left_iff]
    constructor
    · rintro ⟨n, hn, ms, hms, rfl⟩
      exact ⟨n, ms, hn, hms, rfl⟩
    · rintro ⟨n, ms, hn, hms, rfl⟩
      exact ⟨n, hn, ms, hms, rfl⟩

/-- An argument fits if it has the element type of the input and extents that are admitted. -/
private theorem Tensor.fits_iff {input actual : Tensor} : input.Fits ρ actual ↔
    input.dtype = actual.dtype ∧ ∃ ns, actual.extents? = some ns ∧
      List.Forall₂ (fun expected n => expected.Admits ρ n) input.shape ns := by
  have hshape (es dims : List IndexExpr) :
      List.Forall₂ (fun e dim => ∃ n t, dim = .imm n t ∧ e.Admits ρ n) es dims ↔
        ∃ ns, List.Forall₂ (fun dim n => ∃ u, dim = .imm n u) dims ns ∧
          List.Forall₂ (fun e n => e.Admits ρ n) es ns := by
    constructor
    · intro h
      induction h with
      | nil => exact ⟨[], .nil, .nil⟩
      | cons hdim _ ih =>
        obtain ⟨n, t, hn, hadmits⟩ := hdim
        obtain ⟨ns, hns, hall⟩ := ih
        exact ⟨n :: ns, .cons ⟨t, hn⟩ hns, .cons hadmits hall⟩
    · rintro ⟨ns, hns, hall⟩
      induction hns generalizing es with
      | nil =>
        cases hall
        exact .nil
      | cons hdim _ ih =>
        cases hall with
        | cons hadmits hall =>
          obtain ⟨u, hu⟩ := hdim
          exact .cons ⟨_, u, hu, hadmits⟩ (ih _ hall)
  simp only [extents?_eq_some_iff, ← hshape]
  exact ⟨fun h => ⟨h.dtype, h.shape⟩, fun h => ⟨h.1, h.2⟩⟩

namespace EntryPoint

variable {argument axis : Nat} {inputs actuals : List Tensor} {input actual : Tensor}
  {dims : List IndexExpr} {ns : List Int}

private theorem meets_extentChecks (hlength : ns.length = dims.length) :
    Meets (extentChecks argument axis dims ns) ρ ↔
      List.Forall₂ (fun expected n => expected.Admits ρ n) dims ns := by
  induction dims generalizing axis ns with
  | nil =>
    obtain rfl := List.length_eq_zero_iff.mp hlength
    exact iff_of_true meets_nil .nil
  | cons e es ih =>
    cases ns with
    | nil => cases hlength
    | cons n ns =>
      rw [extentChecks, meets_cons, ih (Nat.succ.inj hlength), List.forall₂_cons]

/-- The checks of an argument demand that it fits. -/
private theorem meets_argumentChecks :
    Meets (argumentChecks argument input actual) ρ ↔ input.Fits ρ actual := by
  rw [argumentChecks, meets_cons, meets_cons, Tensor.fits_iff]
  refine and_congr_right fun _ => ?_
  cases hextents : actual.extents? with
  | none =>
    refine iff_of_false (fun h => h.1 rfl) ?_
    rintro ⟨ns, hns, -⟩
    cases hns
  | some ns =>
    rw [meets_cons]
    constructor
    · rintro ⟨-, hrank, hdims⟩
      exact ⟨ns, rfl, (meets_extentChecks hrank).mp hdims⟩
    · rintro ⟨ms, hms, hdims⟩
      obtain rfl := Option.some.inj hms
      have hrank : ns.length = input.rank := hdims.length_eq.symm
      exact ⟨Option.some_ne_none ns, hrank, (meets_extentChecks hrank).mpr hdims⟩

private theorem meets_checksFrom (hlength : inputs.length = actuals.length) :
    Meets (checksFrom argument inputs actuals) ρ ↔
      List.Forall₂ (Tensor.Fits ρ) inputs actuals := by
  induction inputs generalizing argument actuals with
  | nil =>
    obtain rfl := List.length_eq_zero_iff.mp hlength.symm
    exact iff_of_true meets_nil .nil
  | cons input inputs ih =>
    cases actuals with
    | nil => cases hlength
    | cons actual actuals =>
      rw [checksFrom, meets_append, meets_argumentChecks, ih (Nat.succ.inj hlength),
        List.forall₂_cons]

/-- **The checks demand that the arguments fit.** -/
theorem meets_checks : Meets (checks inputs actuals) ρ ↔
    List.Forall₂ (Tensor.Fits ρ) inputs actuals := by
  rw [checks, meets_cons]
  constructor
  · rintro ⟨hlength, h⟩
    exact (meets_checksFrom hlength).mp h
  · intro h
    exact ⟨h.length_eq, (meets_checksFrom h.length_eq).mpr h⟩

end EntryPoint

end

/-! ### Values that solve the checks -/

/-- The assignments that agree with the known values are those that meet the checks. -/
def Bindings.Solves (known : Bindings) (cs : List Check) : Prop :=
  ∀ ρ, known.AgreesWith ρ ↔ Meets cs ρ

/-- What comes of further checks: values that solve all of them, or the mismatch of the first one
that is not met together with those before it. -/
inductive Judged (before cs : List Check) : Except Mismatch Bindings → Prop
  | passed {known : Bindings} : known.Solves (before ++ cs) → Judged before cs (.ok known)
  | failed {met after : List Check} {c : Check} : cs = met ++ c :: after →
      (∃ ρ, Meets (before ++ met) ρ) → (∀ ρ, Meets (before ++ met) ρ → ¬c.demand ρ) →
      Judged before cs (.error c.mismatch)

section

variable {known : Bindings} {c : Check} {before cs ds : List Check} {v : SymVar} {n : Int}
  {r : Except Mismatch Bindings}

namespace Bindings

private theorem agreesWith_bind_iff {ρ : SymVar → Int} (hv : known.value? v = none) :
    (known.bind v n).AgreesWith ρ ↔ known.AgreesWith ρ ∧ ρ v = n := by
  constructor
  · intro h
    have hvn : ρ v = n := h v n (by simp [bind, value?])
    refine ⟨fun w k hw => h w k ?_, hvn⟩
    have hwv : w ≠ v := by
      rintro rfl
      rw [hv] at hw
      cases hw
    rw [value?, bind, List.lookup_cons, beq_false_of_ne hwv]
    exact hw
  · rintro ⟨h, rfl⟩
    exact h.bind v

private theorem solves_nil : Solves [] [] := fun _ => iff_of_true .nil meets_nil

/-- There is an assignment that agrees with the known values. -/
private theorem Solves.exists_meets (h : known.Solves cs) : ∃ ρ, Meets cs ρ :=
  ⟨known.impose fun _ => 0, (h _).mp (known.agreesWith_impose _)⟩

/-- A check that is met anyway says nothing new. -/
theorem Solves.concat (h : known.Solves cs) (hc : ∀ ρ, known.AgreesWith ρ → c.demand ρ) :
    known.Solves (cs ++ [c]) := by
  intro ρ
  rw [meets_concat, ← h ρ, iff_self_and]
  exact hc ρ

/-- A check of a new variable is met by binding it. -/
private theorem Solves.concat_bind (h : known.Solves cs) (hv : known.value? v = none)
    (hc : ∀ ρ, c.demand ρ ↔ ρ v = n) : (known.bind v n).Solves (cs ++ [c]) := by
  intro ρ
  rw [meets_concat, agreesWith_bind_iff hv, h ρ, hc ρ]

end Bindings

namespace Judged

/-- Where nothing is left to check, what is known solves what was checked before. -/
theorem nil (h : known.Solves before) : Judged before [] (.ok known) :=
  .passed (by rwa [List.append_nil])

/-- Checks were met, and then the rest came of this. -/
private theorem prepend (h : Judged (before ++ cs) ds r) : Judged before (cs ++ ds) r := by
  cases h with
  | passed h => exact .passed (by rwa [List.append_assoc] at h)
  | @failed met after d hds hmet hunmet =>
    rw [List.append_assoc] at hmet hunmet
    exact .failed (by rw [hds, List.append_assoc]) hmet hunmet

/-- One check was met, and then the rest came of this. -/
theorem prepend_one (h : Judged (before ++ [c]) ds r) : Judged before (c :: ds) r := prepend h

/-- A check is not met by any values that the checks before it are met by. -/
private theorem fail (h : known.Solves before) (hc : ∀ ρ, known.AgreesWith ρ → ¬c.demand ρ) :
    Judged before (c :: cs) (.error c.mismatch) := by
  have hfirst : c :: cs = [] ++ c :: cs := rfl
  refine .failed hfirst ?_ ?_
  · rw [List.append_nil]
    exact h.exists_meets
  · intro ρ hρ
    rw [List.append_nil, ← h ρ] at hρ
    exact hc ρ hρ

/-- A check that the known values decide. -/
theorem decide {p : Prop} [Decidable p] (h : known.Solves before)
    (hc : ∀ ρ, known.AgreesWith ρ → (c.demand ρ ↔ p))
    (hrest : p → known.Solves (before ++ [c]) → Judged (before ++ [c]) cs r) :
    Judged before (c :: cs) (if p then r else .error c.mismatch) := by
  split
  · next hp => exact prepend_one (hrest hp (h.concat fun ρ hρ => (hc ρ hρ).mpr hp))
  · next hp => exact fail h fun ρ hρ hdemand => hp ((hc ρ hρ).mp hdemand)

/-- Checks that are made if those before them are met. -/
theorem append {s : Except Mismatch Bindings} (h : Judged before cs r)
    (hok : ∀ known, r = .ok known → known.Solves (before ++ cs) → Judged (before ++ cs) ds s)
    (herror : ∀ why, r = .error why → s = .error why) : Judged before (cs ++ ds) s := by
  cases h with
  | passed h => exact prepend (hok _ rfl h)
  | @failed met after d hcs hmet hunmet =>
    rw [herror _ rfl]
    have hall : cs ++ ds = met ++ d :: (after ++ ds) := by
      rw [hcs, List.append_assoc, List.cons_append]
    exact .failed hall hmet hunmet

end Judged

end

/-! ### What an entry point makes of its arguments -/

namespace EntryPoint

variable {known : Bindings} {before : List Check} {argument axis : Nat}
  {inputs actuals : List Tensor} {input actual : Tensor} {dims : List IndexExpr} {ns : List Int}

private theorem judged_bindExtents (h : known.Solves before) :
    Judged before (extentChecks argument axis dims ns)
      (bindExtents argument axis known dims ns) := by
  induction dims generalizing known before axis ns with
  | nil => exact .nil h
  | cons e dims ih =>
    cases ns with
    | nil => exact .nil h
    | cons n ns =>
      cases e with
      | imm k t => exact .decide h (fun _ _ => Iff.rfl) fun _ hsolves => ih hsolves
      | var v =>
        rw [bindExtents]
        cases hv : known.value? v with
        | some k =>
          refine .decide h (fun ρ hρ => ?_) fun _ hsolves => ih hsolves
          rw [← hρ v k hv]
          rfl
        | none => exact .prepend_one (ih (h.concat_bind hv fun _ => Iff.rfl))
      | unknown | arith | compare | and | or | not =>
        exact .prepend_one (ih (h.concat fun _ _ => trivial))

private theorem judged_bindArgument (h : known.Solves before) :
    Judged before (argumentChecks argument input actual)
      (bindArgument argument known input actual) := by
  rw [bindArgument, ite_not]
  refine .decide h (fun _ _ => Iff.rfl) fun _ hsolves => ?_
  cases hextents : actual.extents? with
  | none => exact .fail hsolves fun _ _ hsome => hsome rfl
  | some ns =>
    have hsolves := hsolves.concat (c := ⟨fun _ => some ns ≠ none, .symbolic argument⟩)
      fun _ _ => Option.some_ne_none ns
    refine .prepend_one ?_
    simp only [ite_not]
    exact .decide hsolves (fun _ _ => Iff.rfl) fun _ hsolves => judged_bindExtents hsolves

private theorem judged_bindFrom (h : known.Solves before) :
    Judged before (checksFrom argument inputs actuals)
      (bindFrom argument known inputs actuals) := by
  induction inputs generalizing known before argument actuals with
  | nil => exact .nil h
  | cons input inputs ih =>
    cases actuals with
    | nil => exact .nil h
    | cons actual actuals =>
      rw [checksFrom, bindFrom]
      refine (judged_bindArgument h).append (fun known hknown hsolves => ?_) fun why hwhy => ?_
      · rw [hknown]
        exact ih hsolves
      · rw [hwhy]

/-- **The values that are bound solve all checks, and a mismatch is that of the first one that
cannot be met.** -/
theorem judged_bindAll (inputs actuals : List Tensor) :
    Judged [] (checks inputs actuals) (bindAll inputs actuals) := by
  rw [bindAll, ite_not]
  exact .decide Bindings.solves_nil (fun _ _ => Iff.rfl) fun _ hsolves => judged_bindFrom hsolves

end EntryPoint

/-! ### The values of the variables -/

section

open EntryPoint

variable {known : Bindings} {inputs actuals : List Tensor} {v : SymVar}

/-- The bound variables are the dimensions of inputs: nothing is demanded of the others. -/
theorem Bindings.Solves.exists_value?_iff (h : known.Solves (checks inputs actuals)) :
    (∃ k, known.value? v = some k) ↔ PlainIn inputs v := by
  classical
  have hiff (ρ : SymVar → Int) :
      known.AgreesWith ρ ↔ List.Forall₂ (Tensor.Fits ρ) inputs actuals :=
    (h ρ).trans meets_checks
  let ρ := known.impose fun _ => 0
  have hρ : known.AgreesWith ρ := known.agreesWith_impose _
  -- whether `ρ` may be changed at `v` is what tells the two kinds of variables apart
  let ρ' := Function.update ρ v (ρ v + 1)
  have hv : ρ' v = ρ v + 1 := Function.update_self ..
  constructor
  · rintro ⟨k, hk⟩
    by_contra hplain
    have hsame : ∀ w, PlainIn inputs w → ρ w = ρ' w := by
      intro w hw
      have hwv : w ≠ v := fun heq => hplain (heq ▸ hw)
      exact (Function.update_of_ne hwv ..).symm
    have hρ' := (hiff ρ').mpr (forall₂_fits_congr ((hiff ρ).mp hρ) hsame)
    have h₁ := hρ v k hk
    have h₂ := hρ' v k hk
    omega
  · intro hplain
    by_contra hnone
    have hρ' : known.AgreesWith ρ' := by
      intro w k hw
      have hwv : w ≠ v := fun heq => hnone ⟨k, heq ▸ hw⟩
      rw [← hρ w k hw]
      exact Function.update_of_ne hwv ..
    have heq := eq_of_forall₂_fits ((hiff ρ).mp hρ) ((hiff ρ').mp hρ') hplain
    omega

end

/-! ### Calls -/

namespace EntryPoint

variable {inputs actuals : List Tensor} {known : Bindings} {why : Mismatch}

/-- The assignment that arguments are accepted with solves all checks. -/
theorem solves_of_bindAll (h : bindAll inputs actuals = .ok known) :
    known.Solves (checks inputs actuals) := by
  have hjudged := judged_bindAll inputs actuals
  rw [h] at hjudged
  cases hjudged with
  | passed hsolves => exact hsolves

/-- What agrees with the values that are bound makes the arguments fit, and nothing else does. -/
theorem forall₂_fits_iff_of_bindAll (h : bindAll inputs actuals = .ok known) (ρ : SymVar → Int) :
    List.Forall₂ (Tensor.Fits ρ) inputs actuals ↔ known.AgreesWith ρ :=
  meets_checks.symm.trans (solves_of_bindAll h ρ).symm

private theorem firstUnmet_of_bindAll (h : bindAll inputs actuals = .error why) :
    FirstUnmet (checks inputs actuals) why := by
  have hjudged := judged_bindAll inputs actuals
  rw [h] at hjudged
  cases hjudged with
  | failed hchecks hmet hunmet => exact ⟨_, _, _, hchecks, hmet, hunmet, rfl⟩

/-- Where a check cannot be met, nothing makes the arguments fit. -/
private theorem not_forall₂_fits_of_firstUnmet (h : FirstUnmet (checks inputs actuals) why)
    (ρ : SymVar → Int) : ¬List.Forall₂ (Tensor.Fits ρ) inputs actuals := by
  obtain ⟨before, c, after, hchecks, -, hunmet, -⟩ := h
  rw [← meets_checks, hchecks, meets_append, meets_cons]
  rintro ⟨hbefore, hc, -⟩
  exact hunmet ρ hbefore hc

/-- Arguments that fit are matched, and only those. -/
theorem exists_bindAll_eq_ok_iff : (∃ known, bindAll inputs actuals = .ok known) ↔
    ∃ ρ, List.Forall₂ (Tensor.Fits ρ) inputs actuals := by
  constructor
  · rintro ⟨known, h⟩
    exact ⟨_, (forall₂_fits_iff_of_bindAll h _).mpr (known.agreesWith_impose fun _ => 0)⟩
  · rintro ⟨ρ, hρ⟩
    cases h : bindAll inputs actuals with
    | ok known => exact ⟨known, rfl⟩
    | error why => exact absurd hρ (not_forall₂_fits_of_firstUnmet (firstUnmet_of_bindAll h) ρ)

/-- A call that is accepted ends with the outputs in which the known variables are replaced. -/
theorem call_eq_ok_iff {p : EntryPoint} {m n : Machine σ} {ts : List Tensor} :
    p.call actuals m = (.ok ts, n) ↔ ∃ known, bindAll p.inputs actuals = .ok known ∧
      ts = resolve known m.next p.outputs ∧ n = { m with next := m.next + p.outputs.length } := by
  cases h : bindAll p.inputs actuals <;> simp [call, Action.takeNumbers, h, eq_comm]

private theorem call_eq_mismatch_iff {p : EntryPoint} {m : Machine σ} :
    p.call actuals m = (.fault (.mismatch why), m) ↔ bindAll p.inputs actuals = .error why := by
  cases h : bindAll p.inputs actuals <;> simp [call, Action.takeNumbers, h]

/-- An entry point that is built takes and returns the tensors of its artifact. -/
theorem exists_buildSymbolic (a : Artifact) (m : Machine σ) : ∃ p m₁,
    buildSymbolic a m = (.ok p, m₁) ∧ p.inputs = a.inputs ∧ p.outputs = a.outputs :=
  ⟨.ofArtifact m.next a, { m with next := m.next + 1 }, rfl, rfl, rfl⟩

/-- **An entry point accepts the arguments that fit.** A call succeeds if and only if there is an
assignment that makes the arguments fit the inputs. The values that are bound then are those of the
variables that are dimensions of inputs, and they are what such an assignment has to give to them.
A call that does not succeed reports the first check that no assignment meets together with those
before it, and changes nothing. -/
theorem call_accepts (a : Artifact) (m₀ : Machine σ) :
    ∃ p m₁, buildSymbolic a m₀ = (.ok p, m₁) ∧ ∀ actuals (m : Machine σ),
      ((∃ ts n, p.call actuals m = (.ok ts, n)) ↔
        ∃ ρ, List.Forall₂ (Tensor.Fits ρ) a.inputs actuals) ∧
      (∀ ts n, p.call actuals m = (.ok ts, n) →
        ∃ known, bindAll a.inputs actuals = .ok known ∧ ts = resolve known m.next a.outputs ∧
          (∀ v, (∃ k, known.value? v = some k) ↔ PlainIn a.inputs v) ∧
          ∀ ρ, List.Forall₂ (Tensor.Fits ρ) a.inputs actuals → known.AgreesWith ρ) ∧
      ((¬∃ ρ, List.Forall₂ (Tensor.Fits ρ) a.inputs actuals) →
        ∃ why, p.call actuals m = (.fault (.mismatch why), m) ∧
          FirstUnmet (checks a.inputs actuals) why) := by
  obtain ⟨p, m₁, hbuild, hinputs, houtputs⟩ := exists_buildSymbolic a m₀
  refine ⟨p, m₁, hbuild, fun actuals m => ?_⟩
  rw [← hinputs, ← houtputs, ← exists_bindAll_eq_ok_iff]
  refine ⟨?_, ?_, ?_⟩
  · constructor
    · rintro ⟨ts, n, hok⟩
      obtain ⟨known, hknown, -⟩ := call_eq_ok_iff.mp hok
      exact ⟨known, hknown⟩
    · rintro ⟨known, hknown⟩
      exact ⟨_, _, call_eq_ok_iff.mpr ⟨known, hknown, rfl, rfl⟩⟩
  · intro ts n hok
    obtain ⟨known, hknown, hts, -⟩ := call_eq_ok_iff.mp hok
    exact ⟨known, hknown, hts, fun v => (solves_of_bindAll hknown).exists_value?_iff,
      fun ρ => (forall₂_fits_iff_of_bindAll hknown ρ).mp⟩
  · intro hnone
    cases h : bindAll p.inputs actuals with
    | ok known => exact absurd ⟨known, h⟩ hnone
    | error why => exact ⟨why, call_eq_mismatch_iff.mpr h, firstUnmet_of_bindAll h⟩

/-- For inputs of the shapes `(n, 4)` and `(n)`, arguments of the shapes `(3, 4)` and `(3)` are
accepted and bind `n` to `3`. An argument of the shape `(5)` in the second place is not accepted. -/
theorem call_accepts_repeated :
    let n : SymVar := ⟨0, "n", .int64⟩
    let tensor (shape : List IndexExpr) : Tensor := .placeholder 0 "" shape (.float 32)
    let inputs : List Tensor := [tensor [.var n, .imm 4 .int64], tensor [.var n]]
    let a : Artifact := ⟨0, default, "", inputs, [tensor [.var n]], []⟩
    let m : Machine Unit := .initial () 0
    let actuals (k : Int) : List Tensor :=
      [tensor [.imm 3 .int64, .imm 4 .int64], tensor [.imm k .int64]]
    ∃ p m₁, buildSymbolic a m = (.ok p, m₁) ∧
      (∃ ts m' known, p.call (actuals 3) m = (.ok ts, m') ∧
        bindAll inputs (actuals 3) = .ok known ∧ known.value? n = some 3) ∧
      ∃ why, p.call (actuals 5) m = (.fault (.mismatch why), m) ∧
        FirstUnmet (checks inputs (actuals 5)) why := by
  intro n tensor inputs a m actuals
  obtain ⟨p, m₁, hbuild, hcall⟩ := call_accepts a m
  obtain ⟨haccepts, hbinds, -⟩ := hcall (actuals 3) m
  obtain ⟨-, -, hfails⟩ := hcall (actuals 5) m
  have hfits : List.Forall₂ (Tensor.Fits fun _ => 3) inputs (actuals 3) :=
    .cons ⟨rfl, .cons ⟨3, .int64, rfl, rfl⟩ (.cons ⟨4, .int64, rfl, rfl⟩ .nil)⟩
      (.cons ⟨rfl, .cons ⟨3, .int64, rfl, rfl⟩ .nil⟩ .nil)
  obtain ⟨ts, m', hok⟩ := haccepts.mpr ⟨_, hfits⟩
  obtain ⟨known, hknown, -, hbound, hagrees⟩ := hbinds ts m' hok
  obtain ⟨k, hk⟩ := (hbound n).mpr ⟨tensor [.var n], .tail _ (.head _), .head _⟩
  obtain rfl : 3 = k := hagrees _ hfits n k hk
  refine ⟨p, m₁, hbuild, ⟨ts, m', known, hok, hknown, hk⟩, hfails ?_⟩
  rintro ⟨ρ, hρ⟩
  obtain _ | ⟨hx, _ | ⟨hy, -⟩⟩ := hρ
  have hvar {es dims : List IndexExpr} {k : Int}
      (h : (tensor (.var n :: es)).Fits ρ (tensor (.imm k .int64 :: dims))) : ρ n = k := by
    obtain _ | ⟨⟨l, t, hdim, hadmits⟩, -⟩ := h.shape
    obtain ⟨rfl, -⟩ := IndexExpr.imm.inj hdim
    exact hadmits
  have hthree : ρ n = 3 := hvar hx
  have hfive : ρ n = 5 := hvar hy
  omega

end EntryPoint

end TensorLowering
