import TensorLowering.Proofs.Lowering.Quiet
import TensorLowering.Proofs.Lowering.SameFingerprint

/-!
# A fingerprint is enough for a key

A lowered function is kept under the fingerprint of the function it was lowered from, and is used
for any function with that fingerprint. If the guards that are offered are steady, this is sound:
lowering the other function would have given the same (`Walk.lower_alike`), up to the numbers by
which tensors and new symbolic variables are told apart, and to the names that parameters lend to
their placeholders. Otherwise even lowering the same function again may give something else
(`Walk.exists_lowered_by_lot`).
-/

namespace TensorLowering

open Setting

variable {σ : Type}

/-- What the walks have found in the end is alike. -/
private theorem Visited.lowered {z : Twins} {a : Aspect} {path path' : List Nat} {s t : Encoding}
    {w w' : Correspondence} {inputs inputs' : List Tensor} {r r' : List Tensor × Progress}
    (hinputs : w.SameAll inputs inputs') (hw : (w.withInputs inputs inputs' hinputs).Grows w')
    (hsame : (w.withInputs inputs inputs' hinputs).SameAll inputs inputs')
    (h : Visited z a path path' s t w' r r') :
    Lowered.Alike w'.numbers ⟨inputs, r.1, r.2.calls.reverse, r.2.ops.reverse⟩
      ⟨inputs', r'.1, r'.2.calls.reverse, r'.2.ops.reverse⟩ := by
  rw [← h.abreast.paired.ops]
  exact Lowered.alike_of_same hinputs hw hsame h.same h.abreast.paired.calls _

/-- **Functions with one fingerprint are lowered alike**, whatever lots are drawn, if the guards
that are offered for the calls of the first lowering are steady. For shapes no guard is offered. -/
theorem Walk.lower_alike (v : Walk σ) {f g : Function} {m m' : Machine σ} {old : Nat}
    (hv : v.collaborators.Uniform ⟨m.own, m.tuning.oracle⟩) (hf : f.Coherent) (hg : g.Coherent)
    (hfd : f.Distinct) (hgd : g.Distinct) (hvars : f.AgreeOnVars g) (hknown : f.KnownConstants)
    (hbelow : f.Below old) (hown : m'.own = m.own) (horacle : m'.tuning.oracle = m.tuning.oracle)
    (hm : old ≤ m.next) (hm' : old ≤ m'.next)
    (hsteady : v.aspect = .values → ∀ c, v.Begins f m c → v.Steady c)
    (h : f.fingerprint = g.fingerprint) :
    LoweredAlike old (v.lower f m).1 (v.lower g m').1 := by
  obtain ⟨c, hc⟩ := hf
  obtain ⟨c', hc'⟩ := hg
  obtain ⟨var, hvar⟩ := hvars
  obtain ⟨htypes, hbody, -⟩ := Function.eq_of_fingerprint h
  let z : Twins :=
    { left := ⟨f, c, hc, hfd⟩, right := ⟨g, c', hc', hgd⟩, var := var, agree := hvar, old := old,
      below := hbelow, known := hknown }
  let w : Correspondence := .start (fun _ _ => True) old m.next m'.next hm hm'
  have hw : w.Loose := fun _ _ => trivial
  have hholds : Setting.Holds ⟨m.own, m.tuning.oracle⟩ w m m' := ⟨rfl, hown, rfl, horacle, rfl, rfl⟩
  have hparams := SideBySide.bindParams (w := w) Correspondence.closed_loose hw
    (fun i hi => ⟨rfl, hi⟩) v .start .start (Or.inl fun _ h => h) htypes hbelow.params m m' hholds
  refine Ends.outcomes (LoweredAlike.lifts old) hparams fun w₁ _ _ n n' hstart hgrows hn hbound => ?_
  obtain ⟨hw₁, tss, tss', hlen, hsame, hnew, rfl, rfl⟩ := hbound
  -- from here on the placeholders of the parameters are known by their positions
  have hold : ∀ i : SymId, i.draw < old → w₁.numbers i i :=
    fun i hi => hgrows.numbers i i ⟨rfl, hi⟩
  have hab := Abreast.start z v.aspect (w := w₁.withInputs _ _ hnew.same) hw₁ hold htypes hlen
    (hnew.sameAll_withInputs hsame)
  have hvisit := hab.ends_visit hv f.body z.left.place_body z.right.place_body hbody
    (k := ⟨m.own, m.tuning.oracle⟩)
    ⟨hn.own, hn.own', hn.oracle, hn.oracle', hn.next, hn.next'⟩
    fun c hc => steady_of_values fun haspect =>
      hsteady haspect c ((Walk.begins_iff_body hstart).mp hc)
  refine Ends.outcomes (LoweredAlike.lifts old) hvisit fun w₂ _ _ _ _ _ hgrows' _ hend => ?_
  exact .ok w₂.biUnique hend.2.abreast.old
    (hend.2.lowered hnew.same hgrows' hnew.same_withInputs)

/-! ### An example -/

namespace Function

variable {x y : Var} {i j : Nat}

private theorem double_coherent (x : Var) (hj : j = 1 ∨ j = 2) : (double x 1 j).Coherent := by
  refine ⟨⟨fun n => if n = 0 then (double x 1 j).body else .var n x⟩, rfl, rfl, ?_⟩
  obtain rfl | rfl := hj
  · exact ⟨rfl, trivial⟩
  · exact ⟨rfl, trivial⟩

private theorem double_distinct (x : Var) (i j : Nat) : (double x i j).Distinct := by
  refine ⟨List.pairwise_singleton _ _, ?_, ?_⟩
  · exact fun _ _ h => absurd h List.not_mem_nil
  · exact fun _ _ _ h => absurd h List.not_mem_nil

private theorem eq_of_mentions_double (h : (double x i j).Mentions y) : y = x := by
  cases h with
  | param h => exact List.mem_singleton.mp h
  | letIn h =>
    obtain h | h | h := double_within h
    all_goals exact nomatch h
  | occurrence h =>
    obtain h | h | h := double_within h
    · exact nomatch h
    · exact (Expr.var.inj h).2
    · exact (Expr.var.inj h).2

private theorem double_knownConstants (x : Var) (i j : Nat) : (double x i j).KnownConstants := by
  intro id t data h
  obtain h | h | h := double_within h
  all_goals exact nomatch h

end Function

/-- However the parameter is called, whether its occurrences are shared or not, and whatever lots
are drawn. The second implementation is offered under a steady guard. -/
theorem Walk.lower_alike_double :
    let type : Ty := .tensor ⟨[.var ⟨3, "n", .int32⟩, .unknown], .float 32⟩
    let f := Function.double ⟨0, "x", type⟩ 1 1
    let g := Function.double ⟨5, "y", type⟩ 1 2
    let guard : IndexExpr := .compare .lt (.imm 1 .int32) (.imm 2 .int32)
    let v : Walk Unit := ⟨.twoWays fun _ => some [guard], ⟨.llvm, .empty⟩, true, .values⟩
    let m : Machine Unit := .initial () 4 fun _ => 0
    let m' : Machine Unit := .initial () 9 fun n => 100 - n
    f.fingerprint = g.fingerprint ∧ LoweredAlike 4 (v.lower f m).1 (v.lower g m').1 := by
  intro type f g guard v m m'
  have huniform (k : Setting Unit) : v.collaborators.Uniform k :=
    Collaborators.alikeIn_twoWays Correspondence.closed_loose k fun _ _ _ _ =>
      .some (.cons (.compare .lt (.imm 1 .int32) (.imm 2 .int32)) .nil)
  have hsteady : ∀ c, v.Steady c := by
    refine steady_of_strategies v fun own op s hs attrs inputs type target m o ho e he => ?_
    obtain rfl := Option.some.inj hs
    obtain rfl := Outcome.ok.inj ho
    obtain rfl := List.mem_singleton.mp he
    exact IndexExpr.WellTyped.steady ⟨trivial, trivial⟩
  have hvars : f.AgreeOnVars g := by
    refine ⟨fun n => if n = 0 then ⟨0, "x", type⟩ else ⟨5, "y", type⟩, ?_⟩
    rintro y (h | h)
    · rw [Function.eq_of_mentions_double h]
      rfl
    · rw [Function.eq_of_mentions_double h]
      rfl
  have htype : type.Below 4 := by
    intro leaf hleaf
    obtain rfl := List.mem_singleton.mp hleaf
    have hn : 3 < 4 := by decide
    exact List.forall_mem_cons.mpr ⟨hn, List.forall_mem_singleton.mpr trivial⟩
  have h : f.fingerprint = g.fingerprint := rfl
  refine ⟨h, ?_⟩
  exact @Walk.lower_alike _ v f g m m' 4 (huniform _) (Function.double_coherent _ (Or.inl rfl))
    (Function.double_coherent _ (Or.inr rfl)) (Function.double_distinct _ 1 1)
    (Function.double_distinct _ 1 2) hvars (Function.double_knownConstants _ 1 1)
    (Function.double_below htype) rfl rfl (by decide) (by decide) (fun _ c _ => hsteady c) h

/-- If it depends on the lots which guards are proved, another implementation may be chosen when the
same function is lowered again. -/
theorem Walk.exists_lowered_by_lot :
    let type : Ty := .tensor ⟨[.unknown, .var ⟨3, "m", .int64⟩], .float 32⟩
    let f := Function.double ⟨0, "x", type⟩ 1 1
    let v : Walk Unit := ⟨.twoWays halvesAgree, ⟨.llvm, .empty⟩, true, .values⟩
    let m (lot : Nat) : Machine Unit := .initial () 4 fun _ => lot
    f.Coherent ∧ f.Distinct ∧ f.AgreeOnVars f ∧ f.KnownConstants ∧ f.Below 4 ∧
      (∀ k, v.collaborators.Uniform k) ∧
      ¬LoweredAlike 4 (v.lower f (m 0)).1 (v.lower f (m 9)).1 := by
  intro type f v m
  refine ⟨Function.double_coherent _ (Or.inl rfl), Function.double_distinct _ 1 1, ?_,
    Function.double_knownConstants _ 1 1, Function.double_below fun leaf hleaf => ?_, fun k => ?_,
    fun h => ?_⟩
  · refine ⟨fun _ => ⟨0, "x", type⟩, ?_⟩
    rintro y (h | h)
    · exact (Function.eq_of_mentions_double h).symm
    · exact (Function.eq_of_mentions_double h).symm
  · obtain rfl := List.mem_singleton.mp hleaf
    have hm : 3 < 4 := by decide
    exact List.forall_mem_cons.mpr ⟨trivial, List.forall_mem_singleton.mpr hm⟩
  · exact Collaborators.alikeIn_twoWays Correspondence.closed_loose k optionRel_halvesAgree
  · have hchosen := h.implementations?_eq
    rw [implementations?_halving true 0, implementations?_halving true 9] at hchosen
    exact absurd hchosen (by decide)

end TensorLowering
