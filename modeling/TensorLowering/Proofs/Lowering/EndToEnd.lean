import TensorLowering.Proofs.Lowering.Abreast

/-!
# From end to end

Where two walks begin and what they end with. Before anything is made, old symbolic variables
correspond to themselves, and no others do (`Correspondence.start`). Then placeholders are made for
the parameters, and from there on the bodies are lowered. What was lowered in the end is alike on
both sides (`LoweredAlike`) up to the numbers of new symbolic variables, which are one to one.
-/

namespace TensorLowering

open Encoding

variable {σ : Type}

/-! ### What is the same -/

/-- The same was lowered, up to the numbers of symbolic variables, which correspond by `R`. A
placeholder of a parameter is known by its position among the inputs. -/
structure Lowered.Alike (R : SymId → SymId → Prop) (l l' : Lowered) : Prop where
  ops : l.ops = l'.ops
  calls : List.Forall₂ (fun c c' => c.implementation = c'.implementation ∧
    c.priority = c'.priority ∧ List.Forall₂ (Tensor.Alike R (l.inputs.map Tensor.id)
      (l'.inputs.map Tensor.id)) c.outputs c'.outputs) l.calls l'.calls
  inputs : List.Forall₂ (Tensor.Alike R (l.inputs.map Tensor.id) (l'.inputs.map Tensor.id))
    l.inputs l'.inputs
  outputs : List.Forall₂ (Tensor.Alike R (l.inputs.map Tensor.id) (l'.inputs.map Tensor.id))
    l.outputs l'.outputs

/-- Two lowerings ended with the same fault, or with functions that are alike. The numbers that
correspond are one to one, and each old one corresponds to itself. -/
inductive LoweredAlike (old : Nat) : Outcome Lowered → Outcome Lowered → Prop where
  | ok {R : SymId → SymId → Prop} {l l' : Lowered} : Relator.BiUnique R →
      (∀ i : SymId, i.draw < old → R i i) → l.Alike R l' → LoweredAlike old (.ok l) (.ok l')
  | fault (e : Fault) : LoweredAlike old (.fault e) (.fault e)
  | panic : LoweredAlike old .panic .panic
  | stalled : LoweredAlike old .stalled .stalled

/-- Whatever is no value is lowered alike. -/
theorem LoweredAlike.lifts (old : Nat) : Outcome.Lifts (LoweredAlike old) :=
  ⟨.fault, .panic, .stalled⟩

/-- The implementations that were chosen, if there was no fault. -/
def Outcome.implementations? : Outcome Lowered → Option (List String)
  | .ok l => some (l.calls.map LoweredCall.implementation)
  | .fault _ | .panic | .stalled => none

/-- The same implementations were chosen. -/
theorem LoweredAlike.implementations?_eq {old : Nat} {o o' : Outcome Lowered}
    (h : LoweredAlike old o o') : o.implementations? = o'.implementations? := by
  cases h with
  | ok _ _ h =>
    refine congrArg some ?_
    rw [← List.forall₂_eq_eq_eq, List.forall₂_map_left_iff, List.forall₂_map_right_iff]
    exact h.calls.imp fun _ _ hc => hc.1
  | fault | panic | stalled => rfl

/-! ### Where the walks begin -/

/-- The correspondence before anything is made: old symbolic variables correspond to
themselves. -/
def Correspondence.start (tensors : Tensor → Tensor → Prop) (old next next' : Nat) (h : old ≤ next)
    (h' : old ≤ next') : Correspondence :=
  .identical (.empty next) (.empty next') tensors h h'

/-- The place of the body. -/
theorem Subject.place_body (d : Subject) : d.Place [] d.function.body :=
  ⟨.refl _, fun _ hi => absurd hi List.not_mem_nil⟩

/-- Parameters keep their numbers when they are paired with tensors. -/
theorem Function.map_id_zip (f : Function) {tss : List (List Tensor)}
    (hlen : tss.length = f.params.length) :
    (f.params.zip tss).map (fun v => v.1.id) = f.paramIds := by
  calc (f.params.zip tss).map (fun v => v.1.id)
      = ((f.params.zip tss).map Prod.fst).map Var.id := by
        rw [List.map_map]
        rfl
    _ = f.paramIds := by
        rw [List.map_fst_zip (Nat.le_of_eq hlen.symm)]
        rfl

/-- At the start, the parameters have their positions as numbers and are bound to their tensors;
no other variable has a number or is bound. -/
private theorem Subject.lookup_start (d : Subject) {tss : List (List Tensor)}
    (hlen : tss.length = d.function.params.length) (x : Nat) :
    (d.function.start.bound.lookup x = none ∧
        (Progress.start.bindAll (d.function.params.zip tss)).bound.lookup x = none) ∨
      ∃ k v ts, d.function.params[k]? = some v ∧ v.id = x ∧ tss[k]? = some ts ∧
        d.function.start.bound.lookup x = some k ∧
        (Progress.start.bindAll (d.function.params.zip tss)).bound.lookup x = some ts := by
  obtain ⟨hfits, -, hlookup⟩ := Function.start_bound d.distinct
  have hids := d.function.map_id_zip hlen
  by_cases hx : x ∈ d.function.paramIds
  · right
    rw [Function.paramIds, List.mem_map] at hx
    obtain ⟨v, hv, rfl⟩ := hx
    obtain ⟨k, hk⟩ := List.mem_iff_getElem?.mp hv
    have hlt : k < tss.length := by
      rw [hlen]
      exact (List.getElem?_eq_some_iff.mp hk).1
    have hts : tss[k]? = some tss[k] := List.getElem?_eq_getElem hlt
    have hnodup : ((d.function.params.zip tss).map fun v => v.1.id).Nodup := by
      rw [hids]
      exact d.distinct.params
    have hzip : (d.function.params.zip tss)[k]? = some (v, tss[k]) :=
      List.getElem?_zip_eq_some.mpr ⟨hk, hts⟩
    exact ⟨k, v, tss[k], hk, rfl, hts, hlookup k v hk, Progress.lookup_bindAll hnodup _ hzip⟩
  · left
    constructor
    · by_contra hne
      obtain hmem | ⟨i, -, hi⟩ := hfits.settled x hne
      · exact hx hmem
      · rw [Function.start_visited] at hi
        exact hi rfl
    · rw [← hids] at hx
      exact Progress.lookup_bindAll_of_notMem hx _

/-- At the start what is bound are the parameters, with their tensors. -/
theorem Tracks.start (d : Subject) (a : Aspect) (r : Register) {tss : List (List Tensor)}
    (hlen : tss.length = d.function.params.length) :
    Tracks d a r [] d.function.start (Progress.start.bindAll (d.function.params.zip tss)) := by
  have hvisited := Function.start_visited d.function
  have hmemo := (Progress.start.bindAll_memo (d.function.params.zip tss)).1
  refine ⟨(Function.start_bound d.distinct).1, ?_, ?_, ?_, ?_, ?_⟩
  · rw [hvisited]
    exact Numbered.nil
  · intro i hi
    rw [hvisited] at hi
    exact absurd rfl hi
  · intro i hi
    rw [hvisited] at hi
    exact absurd rfl hi
  · intro x
    obtain ⟨hs, hp⟩ | ⟨k, v, ts, -, -, -, hs, hp⟩ := d.lookup_start hlen x
    · rw [hs, hp]
      exact ⟨fun _ => rfl, fun _ => rfl⟩
    · rw [hs, hp]
      simp
  · intro i ts hi
    rw [hmemo] at hi
    exact nomatch hi

/-- The walks begin abreast, with placeholders that look alike. -/
theorem Abreast.start (z : Twins) (a : Aspect) {w : Correspondence} {tss tss' : List (List Tensor)}
    (hloose : w.Loose) (hold : ∀ i : SymId, i.draw < z.old → w.numbers i i)
    (htypes : z.left.function.params.map Var.type = z.right.function.params.map Var.type)
    (hlen : tss.length = z.left.function.params.length)
    (hsame : List.Forall₂ w.SameAll tss tss') :
    Abreast z a w [] [] z.left.function.start z.right.function.start
      (Progress.start.bindAll (z.left.function.params.zip tss))
      (Progress.start.bindAll (z.right.function.params.zip tss')) := by
  have hparams : z.left.function.params.length = z.right.function.params.length := by
    simpa using congrArg List.length htypes
  have hlen' : tss'.length = z.right.function.params.length := by
    rw [← hsame.length_eq, hlen, hparams]
  obtain ⟨-, hcalls, hops⟩ := Progress.start.bindAll_memo (z.left.function.params.zip tss)
  obtain ⟨-, hcalls', hops'⟩ := Progress.start.bindAll_memo (z.right.function.params.zip tss')
  refine ⟨hloose, hold, .start z.left a _ hlen, .start z.right a _ hlen', ⟨?_, ?_, ?_, ?_, ?_, ?_⟩⟩
  · rw [Function.start_visited, Function.start_visited]
  · rw [(Function.start_bound z.left.distinct).2.1, (Function.start_bound z.right.distinct).2.1,
      hparams]
  · intro x y n ts ts' hx hy hts hts'
    -- both variables are the parameters at one position
    obtain ⟨hnone, -⟩ | ⟨k, v, us, hv, rfl, hus, hk, hbound⟩ := z.left.lookup_start hlen x
    · exact nomatch hnone.symm.trans hx
    obtain ⟨hnone, -⟩ | ⟨k', v', us', hv', rfl, hus', hk', hbound'⟩ := z.right.lookup_start hlen' y
    · exact nomatch hnone.symm.trans hy
    obtain rfl := Option.some.inj (hk.symm.trans hx)
    obtain rfl := Option.some.inj (hk'.symm.trans hy)
    obtain rfl := Option.some.inj (hbound.symm.trans hts)
    obtain rfl := Option.some.inj (hbound'.symm.trans hts')
    constructor
    · rw [z.agree v (Or.inl (.param (List.mem_of_getElem? hv))),
        z.agree v' (Or.inr (.param (List.mem_of_getElem? hv')))]
      have htype := congrArg (fun types => types[k']?) htypes
      simpa [hv, hv'] using htype
    · exact forall₂_getElem? hsame hus hus'
  · intro i j n hi
    rw [Function.start_visited] at hi
    exact nomatch hi
  · rw [hcalls, hcalls']
    exact List.Forall₂.nil
  · rw [hops, hops']

/-! ### Where the walks end -/

/-- What was found with placeholders that look alike is alike, if these are known by their
positions. -/
theorem Lowered.alike_of_same {w w' : Correspondence}
    {inputs inputs' outputs outputs' : List Tensor} {calls calls' : List LoweredCall}
    (hinputs : w.SameAll inputs inputs')
    (hw : (w.withInputs inputs inputs' hinputs).Grows w')
    (hsame : (w.withInputs inputs inputs' hinputs).SameAll inputs inputs')
    (houtputs : w'.SameAll outputs outputs')
    (hcalls : List.Forall₂ (LoweredCall.Alike w') calls calls') (ops : List String) :
    Lowered.Alike w'.numbers ⟨inputs, outputs, calls.reverse, ops⟩
      ⟨inputs', outputs', calls'.reverse, ops⟩ := by
  have hleft : w'.left.params = inputs.map Tensor.id := hw.left.params
  have hright : w'.right.params = inputs'.map Tensor.id := hw.right.params
  have halike {ts ts' : List Tensor} (hts : w'.SameAll ts ts') :
      List.Forall₂ (Tensor.Alike w'.numbers (inputs.map Tensor.id) (inputs'.map Tensor.id))
        ts ts' := by
    rw [← hleft, ← hright]
    exact hts.imp fun _ _ ht => ht.alike
  refine ⟨rfl, ?_, halike (hw.sameAll hsame), halike houtputs⟩
  refine List.forall₂_reverse_iff.mpr (hcalls.imp fun c c' hc => ?_)
  exact ⟨hc.implementation, hc.priority, halike hc.outputs⟩

end TensorLowering
