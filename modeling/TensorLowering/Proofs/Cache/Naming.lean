import TensorLowering.Cache.Names

/-!
# Names that are handed out

Claiming a name hands out one that was not in the table, and the table then has this name and the
ones it had (`NameTable.claim_notMem`, `NameTable.names_claim`).
-/

namespace TensorLowering

namespace NameTable

/-- What the search finds is not in the table, and is all that is added to it. -/
private theorem claimFrom_spec (base name : String) (t : NameTable) :
    (claimFrom base name t).1 ∉ t.names ∧
      (claimFrom base name t).2.names = (claimFrom base name t).1 :: t.names := by
  induction name, t using claimFrom.induct base with
  | case1 name t h =>
    rw [claimFrom]
    split
    · exact ⟨count?_eq_none_iff.mp h, rfl⟩
    · next n hn => rw [h] at hn; cases hn
  | case2 name t n h ih =>
    rw [claimFrom]
    split
    · next hn => rw [h] at hn; cases hn
    · next k hk =>
      rw [h] at hk
      obtain rfl := Option.some.inj hk
      rw [names_bump] at ih
      exact ih

/-- A name that is claimed is a new one. -/
theorem claim_notMem (t : NameTable) (base : String) : (t.claim base).1 ∉ t.names :=
  (claimFrom_spec base base t).1

/-- It is claimed from then on. -/
theorem names_claim (t : NameTable) (base : String) :
    (t.claim base).2.names = (t.claim base).1 :: t.names :=
  (claimFrom_spec base base t).2

/-- A base that looks like a name which was handed out for another base. -/
example : (((empty.claim "a").2.claim "a").2.claim "a_1").1 = "a_1_1" := by cbv

end NameTable

end TensorLowering
