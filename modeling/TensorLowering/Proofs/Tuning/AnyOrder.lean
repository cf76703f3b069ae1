import TensorLowering.Proofs.Tuning.Measurements
import Mathlib.Data.Finset.Card

/-!
# Measurements in any order

What a tuning history answers depends on which measurements were recorded, and on their order only
in one point (`History.query_perm`). It has one entry for each kind of device and workload that was
measured (`History.size_ofRecords`), and it answers with the least cost in the total order of bit
patterns. Patterns of one place in this order are the same (`Binary64.totalKey_inj`), so the least
cost is found in any order, down to its bits. What does depend on the order is the number of the
configuration: it is that of the first measurement with this cost.
-/

namespace TensorLowering

namespace Binary64

variable {x y : Binary64}

/-- The total order tells all patterns apart. -/
theorem totalKey_inj (h : x.totalKey = y.totalKey) : x = y := by
  have hx := x.bits.toNat_lt
  have hy := y.bits.toNat_lt
  simp only [totalKey, negative, magnitude, Nat.shiftLeft_eq, Nat.one_mul,
    decide_eq_true_eq] at h
  have hbits : x.bits.toNat = y.bits.toNat := by
    split at h <;> split at h <;> omega
  obtain ⟨bits⟩ := x
  obtain ⟨bits'⟩ := y
  exact congrArg Binary64.mk (UInt64.toNat_inj.mp hbits)

end Binary64

/-! ### The first of the cheapest -/

/-- The first of the cheapest measurements is the first one with the least cost. -/
private theorem Measurement.find?_of_firstBest {ms : List Measurement} {k : Nat} {a : Measurement}
    (h : FirstBest Undercuts ms k a) : ms.find? (fun m => m.cost = a.cost) = some a := by
  obtain ⟨hk, hget⟩ := List.getElem?_eq_some_iff.mp h.here
  refine List.find?_eq_some_iff_getElem.mpr ⟨decide_eq_true rfl, k, hk, hget, fun j hj => ?_⟩
  have hbeats := h.beats j _ hj (List.getElem?_eq_getElem (hj.trans hk))
  rw [Bool.not_eq_true', decide_eq_false_iff_not]
  intro heq
  simp only [Undercuts, Binary64.totalLt, heq, decide_eq_true_eq, lt_self_iff_false] at hbeats

/-- No measurement costs less than the first of the cheapest. -/
private theorem Measurement.totalKey_le_of_firstBest {ms : List Measurement} {k : Nat}
    {a : Measurement} (h : FirstBest Undercuts ms k a) {m : Measurement} (hm : m ∈ ms) :
    a.cost.totalKey ≤ m.cost.totalKey := by
  have hunbeaten := h.unbeaten m hm
  rw [Undercuts, Binary64.totalLt, decide_eq_true_eq] at hunbeaten
  omega

namespace History

open Measurement

variable {records records' : List Recording} {target : Target} {w : Workload}

/-! ### The entries of a history -/

/-- What the entries of a history are for. -/
def keys (h : History) : List (DeviceKind × Workload) := h.best.map (·.1)

/-- A measurement makes an entry for what was measured, unless there is one. -/
private theorem map_fst_enter (key : DeviceKind × Workload) (m : Measurement)
    (best : List ((DeviceKind × Workload) × Measurement)) :
    (enter key m best).map (·.1) =
      best.map (·.1) ++ if key ∈ best.map (·.1) then [] else [key] := by
  induction best with
  | nil => rfl
  | cons entry rest ih =>
    obtain ⟨k, old⟩ := entry
    by_cases hk : key = k
    · simp [enter, hk]
    · have hmem : key ∈ k :: rest.map (·.1) ↔ key ∈ rest.map (·.1) :=
        List.mem_cons.trans (or_iff_right hk)
      simp only [enter, if_neg hk, List.map_cons, ih, hmem, List.cons_append]

/-- There is one entry for everything that was measured. -/
private theorem keys_ofRecords (records : List Recording) :
    (ofRecords records).keys.Nodup ∧
      ∀ key, key ∈ (ofRecords records).keys ↔ key ∈ records.map (·.1) := by
  induction records using List.reverseRecOn with
  | nil => exact ⟨List.nodup_nil, fun _ => Iff.rfl⟩
  | append_singleton records r ih =>
    obtain ⟨hnodup, hmem⟩ := ih
    have hkeys : (ofRecords (records ++ [r])).keys =
        (ofRecords records).keys ++ if r.1 ∈ (ofRecords records).keys then [] else [r.1] := by
      rw [keys, best_ofRecords_concat, map_fst_enter, ← keys]
    rw [hkeys]
    split
    · next hr =>
      rw [List.append_nil]
      refine ⟨hnodup, fun key => ?_⟩
      rw [hmem, List.map_append, List.mem_append, List.map_singleton, List.mem_singleton]
      refine ⟨Or.inl, fun h => h.elim id fun heq => ?_⟩
      rw [heq, ← hmem]
      exact hr
    · next hr =>
      refine ⟨hnodup.append (List.nodup_singleton _) ?_, fun key => ?_⟩
      · exact List.disjoint_singleton.mpr hr
      · rw [List.mem_append, hmem, List.map_append, List.mem_append, List.map_singleton]

/-- The size of a history is the number of things that were measured. -/
theorem size_ofRecords (records : List Recording) :
    (ofRecords records).size = (records.map (·.1)).toFinset.card := by
  obtain ⟨hnodup, hmem⟩ := keys_ofRecords records
  have hset : (ofRecords records).keys.toFinset = (records.map (·.1)).toFinset := by
    ext key
    rw [List.mem_toFinset, List.mem_toFinset, hmem]
  rw [← hset, List.toFinset_card_of_nodup hnodup, keys, List.length_map, size]

/-! ### What a history answers -/

private theorem measured_perm (h : records.Perm records') (key : DeviceKind × Workload) :
    (measured key records).Perm (measured key records') :=
  (h.filter _).map _

/-- A history answers that nothing is known just if nothing was measured. -/
private theorem query_ofRecords_eq_fallback_iff :
    (ofRecords records).query target w = .fallback ↔ measured (target.kind, w) records = [] := by
  constructor
  · intro hquery
    by_contra hmeasured
    obtain ⟨x, n, htuned⟩ := exists_query_ofRecords hmeasured
    rw [hquery] at htuned
    cases htuned
  · intro hmeasured
    rw [query, lookup_ofRecords, hmeasured]
    rfl

/-- A history answers with the least cost that was measured, and with the number of the first
measurement of this cost. -/
private theorem query_ofRecords_least {x : Binary64} {n : Nat}
    (h : (ofRecords records).query target w = .tuned x n) :
    (measured (target.kind, w) records).find? (fun m => m.cost = x) = some ⟨x, n⟩ ∧
      ∀ m ∈ measured (target.kind, w) records, x.totalKey ≤ m.cost.totalKey := by
  obtain ⟨k, hk⟩ := query_ofRecords_iff.mp h
  exact ⟨find?_of_firstBest hk, fun m hm => totalKey_le_of_firstBest hk hm⟩

/-- **The order of measurements** is of no account for what a history answers. If the same
measurements are recorded in two orders, the histories have the same size, and for every target and
workload both answer that nothing is known, which is so if nothing was measured for them, or both
answer with a cost of the same bits: the least one in the total order of bit patterns that was
measured for them. The number answered is in each history that of the first measurement with this
cost. -/
theorem query_perm (h : records.Perm records') :
    (ofRecords records).size = (ofRecords records').size ∧
    ∀ (target : Target) (w : Workload),
      (measured (target.kind, w) records = [] ∧
        (ofRecords records).query target w = .fallback ∧
        (ofRecords records').query target w = .fallback) ∨
      ∃ x n n', (ofRecords records).query target w = .tuned x n ∧
        (ofRecords records').query target w = .tuned x n' ∧
        (∀ m ∈ measured (target.kind, w) records, x.totalKey ≤ m.cost.totalKey) ∧
        (measured (target.kind, w) records).find? (fun m => m.cost = x) = some ⟨x, n⟩ ∧
        (measured (target.kind, w) records').find? (fun m => m.cost = x) = some ⟨x, n'⟩ := by
  refine ⟨?_, fun target w => ?_⟩
  · rw [size_ofRecords, size_ofRecords, List.toFinset_eq_of_perm _ _ (h.map _)]
  · have hperm := measured_perm h (target.kind, w)
    by_cases hmeasured : measured (target.kind, w) records = []
    · refine Or.inl ⟨hmeasured, query_ofRecords_eq_fallback_iff.mpr hmeasured, ?_⟩
      rw [hmeasured] at hperm
      exact query_ofRecords_eq_fallback_iff.mpr hperm.nil_eq.symm
    · have hmeasured' : measured (target.kind, w) records' ≠ [] := fun hnil =>
        hmeasured (hnil ▸ hperm).eq_nil
      obtain ⟨x, n, hquery⟩ := exists_query_ofRecords hmeasured
      obtain ⟨y, n', hquery'⟩ := exists_query_ofRecords hmeasured'
      obtain ⟨hfind, hleast⟩ := query_ofRecords_least hquery
      obtain ⟨hfind', hleast'⟩ := query_ofRecords_least hquery'
      -- each of the two costs was measured in both orders, so neither is less
      have hle := hleast _ (hperm.mem_iff.mpr (List.mem_of_find?_eq_some hfind'))
      have hle' := hleast' _ (hperm.mem_iff.mp (List.mem_of_find?_eq_some hfind))
      obtain rfl : x = y := Binary64.totalKey_inj (le_antisymm hle hle')
      exact Or.inr ⟨x, n, n', hquery, hquery', hleast, hfind, hfind'⟩

/-- The two zeros, measured in two orders: the negative one is less, and it was measured twice. -/
theorem query_perm_zeros :
    let dense : Workload := ⟨"dense", [.int 4]⟩
    let llvm : Target := ⟨.llvm, .empty⟩
    let zero : Binary64 := ⟨0x8000000000000000⟩
    let records : List Recording := [((.llvm, dense), ⟨⟨0⟩, 0⟩), ((.llvm, dense), ⟨zero, 1⟩),
      ((.cuda, dense), ⟨⟨0xfff8000000000000⟩, 2⟩), ((.llvm, dense), ⟨zero, 3⟩)]
    records.Perm records.reverse ∧
      (ofRecords records).size = (ofRecords records.reverse).size ∧
      (ofRecords records).query llvm dense = .tuned zero 1 ∧
      (ofRecords records.reverse).query llvm dense = .tuned zero 3 := by
  intro dense llvm zero records
  have hperm : records.Perm records.reverse := (List.reverse_perm records).symm
  have hquery : (ofRecords records).query llvm dense = .tuned zero 1 := by decide
  obtain ⟨hsize, hanswers⟩ := query_perm hperm
  obtain ⟨-, hnone, -⟩ | ⟨x, n, n', htuned, htuned', -, -, hfind⟩ := hanswers llvm dense
  · rw [hquery] at hnone
    cases hnone
  · obtain ⟨rfl, rfl⟩ := Profile.tuned.inj (hquery.symm.trans htuned)
    have hfirst : (measured (.llvm, dense) records.reverse).find? (fun m => m.cost = zero) =
        some ⟨zero, 3⟩ := by decide
    obtain ⟨-, rfl⟩ := Measurement.mk.inj (Option.some.inj (hfirst.symm.trans hfind))
    exact ⟨hperm, hsize, hquery, htuned'⟩

end History

end TensorLowering
