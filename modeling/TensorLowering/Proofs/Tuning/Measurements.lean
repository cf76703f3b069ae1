import TensorLowering.Proofs.Lowering.Selection

/-!
# What a tuning history answers

A history answers for a kind of device and a workload with what was measured for them and with
nothing else: it keeps the first of the least measurements in the total order of bit patterns
(`History.query_ofRecords_iff`). It is built by a fold over the measurements, like the choice among
candidates, and what it keeps is found by the same lemma, `foldl_firstBest`.

Candidates are compared by finite costs only, and as numbers. What is least in the total order is
also least as a number (`Binary64.numericLt_eq_false`). But in the total order the patterns that are
not finite stand outside of the numbers on both sides (`Binary64.isFinite_iff`): the positive
infinity and the `NaN`s without the sign bit behind them all, the negative infinity and the `NaN`s
with the sign bit before them all. So the former never hide a finite measurement, and one of the
latter hides all of them. `History.query_finite` says both, and `History.exists_hidden` shows the
two shortest histories in which a finite measurement is hidden.
-/

namespace TensorLowering

/-! ### The two orders of costs -/

namespace Binary64

variable {x y : Binary64}

/-- The key of the positive infinity: all bits of the exponent field, and no other. -/
def infinityKey : Int := 0x7FF0000000000000

/-- The finite patterns are those between two places of the total order. -/
theorem isFinite_iff : x.isFinite = true ↔
    -infinityKey ≤ x.totalKey ∧ x.totalKey < infinityKey := by
  have hfield : x.exponentField < 2047 ↔ x.magnitude < 0x7FF0000000000000 := by
    rw [exponentField, Nat.shiftLeft_eq, Nat.one_mul]
    exact Nat.div_lt_iff_lt_mul (by decide)
  rw [isFinite, decide_eq_true_iff, hfield, totalKey, infinityKey]
  split <;> omega

/-- A pattern that is not finite stands on the side of its sign bit. -/
private theorem negative_iff_totalKey_lt (hx : x.isFinite = false) :
    x.negative = true ↔ x.totalKey < -infinityKey := by
  have houtside : ¬(-infinityKey ≤ x.totalKey ∧ x.totalKey < infinityKey) := by
    rw [← isFinite_iff, hx]
    exact Bool.false_ne_true
  rw [totalKey, infinityKey] at houtside ⊢
  by_cases hneg : x.negative = true
  · rw [if_pos hneg] at houtside ⊢
    exact iff_of_true hneg (by omega)
  · rw [if_neg hneg] at houtside ⊢
    exact iff_of_false hneg (by omega)

/-- What is not less in the total order is not less as a number. -/
theorem numericLt_eq_false (h : x.totalLt y = false) : x.numericLt y = false := by
  rw [totalLt, decide_eq_false_iff_not, totalKey, totalKey] at h
  rw [numericLt, decide_eq_false_iff_not, numericKey, numericKey]
  -- the keys differ by one below zero, and there both sides shift
  by_cases hx : x.negative = true <;> by_cases hy : y.negative = true <;>
    simp only [hx, hy, if_true, if_false, Bool.false_eq_true] at h ⊢ <;> omega

end Binary64

/-! ### What is kept -/

/-- What was measured for a workload on a kind of device. -/
abbrev Recording := (DeviceKind × Workload) × Measurement

/-- The history in which these measurements were recorded, one after the other. -/
def History.ofRecords (records : List Recording) : History :=
  records.foldl (fun h r => h.record r.1.1 r.1.2 r.2) .empty

/-- The measurements for one kind of device and one workload, in order. -/
def measured (key : DeviceKind × Workload) (records : List Recording) : List Measurement :=
  (records.filter fun r => r.1 = key).map Prod.snd

namespace Measurement

/-- The first measurement is cheaper, in the total order. -/
def Undercuts (a b : Measurement) : Prop := a.cost.totalLt b.cost = true

/-- The cheaper one of two measurements; of equal ones the first. -/
def cheaper (old m : Measurement) : Measurement := if m.cost.totalLt old.cost then m else old

/-- What is kept of some measurements. -/
def cheapest? : List Measurement → Option Measurement
  | [] => none
  | m :: ms => some (ms.foldl cheaper m)

private theorem cheapest?_concat (ms : List Measurement) (m : Measurement) :
    cheapest? (ms ++ [m]) = some (((cheapest? ms).map fun old => old.cheaper m).getD m) := by
  cases ms with
  | nil => rfl
  | cons a as => simp [cheapest?]

/-- What is kept is the first of the cheapest. -/
private theorem cheapest?_eq_some_iff {ms : List Measurement} {m : Measurement} :
    cheapest? ms = some m ↔ ∃ k, FirstBest Undercuts ms k m := by
  cases ms with
  | nil => exact ⟨nofun, fun ⟨_, hk⟩ => nomatch hk.here⟩
  | cons a as =>
    have hfold : ∃ k, FirstBest Undercuts (a :: as) k (as.foldl cheaper a) := by
      refine foldl_firstBest (fun a b => ?_) (fun a b h => ?_) (fun a b c h h' => ?_) as a
      · unfold cheaper Undercuts
        by_cases hlt : b.cost.totalLt a.cost = true <;> simp [hlt]
      · simp only [Undercuts, Binary64.totalLt, decide_eq_true_eq] at h ⊢
        omega
      · simp only [Undercuts, Binary64.totalLt, decide_eq_true_eq] at h h' ⊢
        omega
    obtain ⟨k, hk⟩ := hfold
    constructor
    · intro h
      obtain rfl := Option.some.inj h
      exact ⟨k, hk⟩
    · rintro ⟨k', hk'⟩
      exact congrArg some (hk.unique hk').2

end Measurement

namespace History

open Measurement

variable {records : List Recording} {target : Target} {w : Workload} {x : Binary64} {n : Nat}

/-- A measurement that is entered meets the one that is there, and no other. -/
private theorem lookup_enter (key key' : DeviceKind × Workload) (m : Measurement)
    (best : List ((DeviceKind × Workload) × Measurement)) :
    (enter key m best).lookup key' = if key' = key
      then some (((best.lookup key).map fun old => old.cheaper m).getD m)
      else best.lookup key' := by
  induction best with
  | nil =>
    by_cases h : key' = key
    · simp [enter, h]
    · simp [enter, List.lookup_cons, beq_false_of_ne h, h]
  | cons entry rest ih =>
    obtain ⟨k, old⟩ := entry
    by_cases hk : key = k
    · subst hk
      by_cases h : key' = key
      · simp [enter, h, cheaper]
      · simp [enter, List.lookup_cons, beq_false_of_ne h, h]
    · by_cases h : key' = k
      · subst h
        simp [enter, hk, Ne.symm hk]
      · simp [enter, hk, List.lookup_cons, beq_false_of_ne h, beq_false_of_ne hk, ih]

private theorem measured_concat (key : DeviceKind × Workload) (records : List Recording)
    (r : Recording) :
    measured key (records ++ [r]) = measured key records ++ if r.1 = key then [r.2] else [] := by
  by_cases h : r.1 = key <;> simp [measured, h]

/-- The last record is entered behind the other ones. -/
theorem best_ofRecords_concat (records : List Recording) (r : Recording) :
    (ofRecords (records ++ [r])).best = enter r.1 r.2 (ofRecords records).best := by
  simp [ofRecords, record]

/-- A history keeps the first of the cheapest measurements for every kind of device and every
workload. -/
theorem lookup_ofRecords (key : DeviceKind × Workload) (records : List Recording) :
    (ofRecords records).best.lookup key = cheapest? (measured key records) := by
  induction records using List.reverseRecOn with
  | nil => rfl
  | append_singleton records r ih =>
    rw [best_ofRecords_concat, lookup_enter, measured_concat]
    by_cases h : r.1 = key
    · subst h
      simp [cheapest?_concat, ih]
    · simp [h, Ne.symm h, ih]

/-- **A history answers** with a cost just if it is that of the first of the cheapest measurements
for the workload on this kind of device. -/
theorem query_ofRecords_iff : (ofRecords records).query target w = .tuned x n ↔
    ∃ k, FirstBest Undercuts (measured (target.kind, w) records) k ⟨x, n⟩ := by
  rw [← cheapest?_eq_some_iff, ← lookup_ofRecords, query]
  cases (ofRecords records).best.lookup (target.kind, w) with
  | none => simp
  | some m =>
    obtain ⟨cost, index⟩ := m
    simp

/-- A history has an answer for everything that was measured. -/
theorem exists_query_ofRecords (h : measured (target.kind, w) records ≠ []) :
    ∃ x n, (ofRecords records).query target w = .tuned x n := by
  obtain ⟨m, ms, hms⟩ := List.exists_cons_of_ne_nil h
  have hlookup := lookup_ofRecords (target.kind, w) records
  rw [hms] at hlookup
  rw [query, hlookup]
  exact ⟨_, _, rfl⟩

end History

/-! ### Finite measurements -/

/-- The measurement is none, and in the total order it stands before all numbers: it is the negative
infinity or a `NaN` with the sign bit. -/
def Measurement.Hides (m : Measurement) : Prop := m.cost.isFinite = false ∧ m.cost.negative = true

/-- Where something finite was measured, the cheapest measurement is finite unless another one hides
it. -/
private theorem Measurement.isFinite_iff_of_firstBest {ms : List Measurement} {k : Nat}
    {a : Measurement} (h : FirstBest Undercuts ms k a)
    (hfinite : ∃ m ∈ ms, m.cost.isFinite = true) : a.cost.isFinite = true ↔ ∀ m ∈ ms, ¬m.Hides := by
  have hleast : ∀ m ∈ ms, a.cost.totalKey ≤ m.cost.totalKey := by
    intro m hm
    have hunbeaten := h.unbeaten m hm
    simp only [Undercuts, Binary64.totalLt, decide_eq_true_eq] at hunbeaten
    omega
  constructor
  · rintro ha m hm ⟨hinfinite, hnegative⟩
    have hbefore := (Binary64.negative_iff_totalKey_lt hinfinite).mp hnegative
    have hbound := (Binary64.isFinite_iff.mp ha).1
    have hle := hleast m hm
    omega
  · intro hall
    -- were it not finite, it would have to stand behind the finite one
    by_contra hnot
    have hinfinite : a.cost.isFinite = false := eq_false_of_ne_true hnot
    have hside : ¬a.cost.totalKey < -Binary64.infinityKey := by
      rw [← Binary64.negative_iff_totalKey_lt hinfinite]
      exact fun hnegative => hall a (List.mem_of_getElem? h.here) ⟨hinfinite, hnegative⟩
    obtain ⟨m, hm, hm'⟩ := hfinite
    have hbound := (Binary64.isFinite_iff.mp hm').2
    have hle := hleast m hm
    exact hnot (Binary64.isFinite_iff.mpr (by omega))

/-- The cost that a candidate is compared by is that of the workload behind its outputs. -/
private theorem cost_of_computeAll {σ : Type} {oracle : Oracle} {r : CallSite} {target : Target}
    {is : List (Implementation σ)} {m m' : Machine σ} {all : List (Computed σ)}
    (h : computeAll oracle r target is m = (.ok all, m')) {c : Computed σ} (hc : c ∈ all) :
    c.cost = tunedCost? oracle target c.outputs := by
  obtain ⟨outputs, -, rfl⟩ := computeAll_eq_ok_iff.mp h
  obtain ⟨p, -, rfl⟩ := List.mem_map.mp hc
  rfl

/-- **Which finite measurements count.** If something finite was measured for a workload on a kind
of device, a history answers with a measurement for them. Its cost is finite just if no negative
infinity and no `NaN` with the sign bit was recorded for them too; then no finite cost that was
recorded is less, and it is the cost by which every candidate is compared behind whose outputs the
workload is found. Otherwise such a candidate counts as not measured. -/
theorem History.query_finite (records : List Recording) (target : Target) (w : Workload)
    (hfinite : ∃ m ∈ measured (target.kind, w) records, m.cost.isFinite = true) :
    ∃ m ∈ measured (target.kind, w) records,
      (ofRecords records).query target w = .tuned m.cost m.index ∧
      (m.cost.isFinite = true ↔ ∀ a ∈ measured (target.kind, w) records, ¬a.Hides) ∧
      (m.cost.isFinite = true → ∀ a ∈ measured (target.kind, w) records,
        a.cost.isFinite = true → a.cost.numericLt m.cost = false) ∧
      ∀ (σ : Type) (is : List (Implementation σ)) r n n' all,
        computeAll (ofRecords records).query r target is n = (.ok all, n') →
        ∀ c ∈ all, nearestWorkload? c.outputs = some w →
          c.cost = if m.cost.isFinite then some m.cost else none := by
  have hmeasured : measured (target.kind, w) records ≠ [] :=
    List.ne_nil_of_mem hfinite.choose_spec.1
  obtain ⟨x, n, hquery⟩ := exists_query_ofRecords hmeasured
  obtain ⟨k, hk⟩ := query_ofRecords_iff.mp hquery
  refine ⟨⟨x, n⟩, List.mem_of_getElem? hk.here, hquery,
    Measurement.isFinite_iff_of_firstBest hk hfinite, ?_, ?_⟩
  · intro _ b hb _
    exact Binary64.numericLt_eq_false (eq_false_of_ne_true (hk.unbeaten b hb))
  · intro σ is r m m' all hall c hc hw
    rw [cost_of_computeAll hall hc, tunedCost?, hw, Option.bind_some, hquery]
    cases hx : x.isFinite <;> simp [Profile.finiteCost?, Profile.cost?, hx]

/-- A `NaN` and the positive infinity do not hide a cost of four, and neither does what was measured
on another device. -/
theorem History.query_finite_kept :
    let dense : Workload := ⟨"dense", [.int 4]⟩
    let llvm : Target := ⟨.llvm, .empty⟩
    let four : Binary64 := ⟨0x4010000000000000⟩
    let records : List Recording := [((.llvm, dense), ⟨⟨0x7ff8000000000000⟩, 0⟩),
      ((.llvm, dense), ⟨four, 1⟩), ((.llvm, dense), ⟨⟨0x7ff0000000000000⟩, 2⟩),
      ((.llvm, dense), ⟨four, 3⟩), ((.cuda, dense), ⟨⟨0xfff0000000000000⟩, 4⟩)]
    (∃ m ∈ measured (.llvm, dense) records, m.cost.isFinite = true) ∧
      (ofRecords records).query llvm dense = .tuned four 1 ∧
      ∀ (σ : Type) (is : List (Implementation σ)) r n n' all,
        computeAll (ofRecords records).query r llvm is n = (.ok all, n') →
        ∀ c ∈ all, nearestWorkload? c.outputs = some dense → c.cost = some four := by
  intro dense llvm four records
  have hfinite : ∃ m ∈ measured (.llvm, dense) records, m.cost.isFinite = true :=
    ⟨⟨four, 1⟩, by decide, by decide⟩
  have hquery : (ofRecords records).query llvm dense = .tuned four 1 := by decide
  obtain ⟨⟨x, n⟩, -, hx, -, -, hcost⟩ := History.query_finite records llvm dense hfinite
  obtain ⟨rfl, rfl⟩ := Profile.tuned.inj (hquery.symm.trans hx)
  refine ⟨hfinite, hquery, fun σ is r m m' all hall c hc hw => ?_⟩
  exact (hcost σ is r m m' all hall c hc hw).trans (if_pos (by decide))

/-- **A finite measurement may be hidden.** After a cost of four, a `NaN` with the sign bit is
recorded, or the negative infinity: the history answers with that, and it is not finite. -/
theorem History.exists_hidden :
    let dense : Workload := ⟨"dense", [.int 4]⟩
    let llvm : Target := ⟨.llvm, .empty⟩
    let four : Binary64 := ⟨0x4010000000000000⟩
    ∃ x y : Binary64, x.isNaN = true ∧ y.isNaN = false ∧ four.isFinite = true ∧
      ∀ z ∈ [x, y], z.isFinite = false ∧
        (ofRecords [((.llvm, dense), ⟨four, 0⟩), ((.llvm, dense), ⟨z, 1⟩)]).query llvm dense =
          .tuned z 1 :=
  ⟨⟨0xfff8000000000000⟩, ⟨0xfff0000000000000⟩, by decide, by decide, by decide, by decide⟩

end TensorLowering
