import TensorLowering.Lowering.Naming

/-!
# Names are identifiers

Operators may be called anything, and a name is cut by bytes, so a name could be cut inside of a
character, which no text can be. This never happens (`kernelName?_isIdentifier`):

* what stands for a character in a name is a letter, a digit or an underscore, whatever the
  character is (`isIdentifierChar_nameChar`);
* so a full name, which is made of such characters and underscores, is an identifier
  (`toList_fullName`, `isIdentifier_fullName`);
* each character of an identifier takes one byte, so it can be cut after any number of bytes
  (`IsIdentifier.firstBytes?_eq`);
* the mark behind the cut is made of hexadecimal digits (`Digest.isHexDigit_of_mem_hexDigits`).

Hence there is a name for all operators (`isSome_kernelName?`), which is `kernelName`.
-/

namespace TensorLowering

variable {s t : String} {ops : List String} {n maxLength : Nat} {c : Char}

/-! ### Identifiers -/

/-- A letter, a digit or an underscore, each of them from ASCII. -/
def IsIdentifierChar (c : Char) : Prop :=
  ('a' ≤ c ∧ c ≤ 'z') ∨ ('A' ≤ c ∧ c ≤ 'Z') ∨ ('0' ≤ c ∧ c ≤ '9') ∨ c = '_'

/-- A text of letters, digits and underscores. -/
def IsIdentifier (s : String) : Prop := ∀ c ∈ s.toList, IsIdentifierChar c

instance : DecidablePred IsIdentifierChar := fun _ => inferInstanceAs (Decidable (_ ∨ _))

instance : DecidablePred IsIdentifier := fun s => List.decidableBAll IsIdentifierChar s.toList

private theorem isIdentifier_append_iff :
    IsIdentifier (s ++ t) ↔ IsIdentifier s ∧ IsIdentifier t := by
  unfold IsIdentifier
  rw [String.toList_append]
  exact List.forall_mem_append

private theorem IsIdentifierChar.utf8Size_eq (h : IsIdentifierChar c) : c.utf8Size = 1 := by
  rw [Char.utf8Size_eq_one_iff]
  obtain h | h | h | rfl := h
  · exact UInt32.le_trans h.2 (by decide)
  · exact UInt32.le_trans h.2 (by decide)
  · exact UInt32.le_trans h.2 (by decide)
  · decide

/-- Characters of an identifier take one byte each. -/
private theorem utf8ByteSize_ofList {cs : List Char} (h : ∀ c ∈ cs, IsIdentifierChar c) :
    (String.ofList cs).utf8ByteSize = cs.length := by
  induction cs with
  | nil => rfl
  | cons c cs ih =>
    obtain ⟨hc, hcs⟩ := List.forall_mem_cons.mp h
    rw [String.ofList_cons, String.utf8ByteSize_append, String.utf8ByteSize_singleton,
      hc.utf8Size_eq, ih hcs, List.length_cons, Nat.add_comm]

/-! ### The full name -/

/-- Also a character from beyond ASCII is replaced by one from it. -/
theorem isIdentifierChar_nameChar (c : Char) : IsIdentifierChar (nameChar c) := by
  unfold nameChar
  split
  · next h =>
    have hclass : (c.isUpper = true ∨ c.isLower = true) ∨ c.isDigit = true := by
      rwa [← Bool.or_eq_true_iff, ← Bool.or_eq_true_iff]
    obtain (hupper | hlower) | hdigit := hclass
    · exact .inr (.inl (of_decide_eq_true hupper))
    · obtain ⟨hge, hle⟩ := Bool.and_eq_true_iff.mp hlower
      exact .inl ⟨of_decide_eq_true hge, of_decide_eq_true hle⟩
    · obtain ⟨hge, hle⟩ := Bool.and_eq_true_iff.mp hdigit
      exact .inr (.inr (.inl ⟨of_decide_eq_true hge, of_decide_eq_true hle⟩))
  · exact .inr (.inr (.inr rfl))

/-- To join parts is to put the separator in front of each part but the first one. -/
private theorem intercalate_cons {α : Type} (sep part : List α) (parts : List (List α)) :
    sep.intercalate (part :: parts) = part ++ parts.flatMap (sep ++ ·) := by
  induction parts generalizing part with
  | nil => rw [List.intercalate_singleton, List.flatMap_nil, List.append_nil]
  | cons part' parts ih =>
    rw [List.intercalate_cons_cons, ih, List.flatMap_cons, List.append_assoc, List.append_assoc]

/-- In a full name each operator stands behind an underscore of its own. -/
theorem toList_fullName (ops : List String) :
    (fullName ops).toList =
      "fused".toList ++ ops.flatMap fun op => '_' :: op.toList.map nameChar := by
  cases ops with
  | nil => rfl
  | cons op ops =>
    rw [fullName, List.isEmpty_cons, if_neg Bool.false_ne_true, String.toList_append,
      String.toList_intercalate, List.map_cons, List.map_cons, intercalate_cons, List.flatMap_cons]
    simp [identifier, List.flatMap_map]

private theorem isIdentifier_fullName (ops : List String) : IsIdentifier (fullName ops) := by
  intro c hc
  rw [toList_fullName] at hc
  obtain hc | hc := List.mem_append.mp hc
  · exact (by decide : IsIdentifier "fused") c hc
  · obtain ⟨op, -, hc⟩ := List.mem_flatMap.mp hc
    obtain rfl | hc := List.mem_cons.mp hc
    · decide
    · obtain ⟨d, -, rfl⟩ := List.mem_map.mp hc
      exact isIdentifierChar_nameChar d

/-! ### The first bytes -/

private theorem firstBytes?_eq_some_iff :
    firstBytes? s n = some t ↔ ∃ rest, s = t ++ rest ∧ t.utf8ByteSize = n := by
  unfold firstBytes?
  constructor
  · intro h
    split at h
    · next hvalid =>
      have hsplits := (s.pos ⟨n⟩ hvalid).splits
      rw [Option.some_inj.mp h] at hsplits
      exact ⟨_, hsplits.eq_append, (congrArg (·.byteIdx) hsplits.offset_eq_rawEndPos).symm⟩
    · cases h
  · rintro ⟨rest, happend, rfl⟩
    have hvalid : String.Pos.Raw.IsValid s ⟨t.utf8ByteSize⟩ :=
      String.Pos.Raw.isValid_iff_exists_append.mpr ⟨t, rest, happend, rfl⟩
    have hsplits : (s.pos ⟨t.utf8ByteSize⟩ hvalid).Splits t rest := ⟨happend, rfl⟩
    rw [dif_pos hvalid, hsplits.copy_sliceTo_eq]

/-- A character that takes two bytes can be cut on both sides, but not in the middle. -/
example : [0, 1, 2, 3].map (firstBytes? "é") = [some "", none, some "é", none] := by decide

/-- An identifier can be cut anywhere: its first bytes are its first characters. -/
theorem IsIdentifier.firstBytes?_eq (h : IsIdentifier s) (hn : n ≤ s.utf8ByteSize) :
    firstBytes? s n = some (String.ofList (s.toList.take n)) := by
  have hlength : s.utf8ByteSize = s.toList.length := by
    rw [← utf8ByteSize_ofList h, String.ofList_toList]
  refine firstBytes?_eq_some_iff.mpr ⟨String.ofList (s.toList.drop n), ?_, ?_⟩
  · rw [← String.ofList_append, List.take_append_drop, String.ofList_toList]
  · rw [utf8ByteSize_ofList fun c hc => h c (List.mem_of_mem_take hc), List.length_take]
    exact Nat.min_eq_left (hlength ▸ hn)

/-! ### The mark -/

namespace Digest

/-- A hexadecimal digit in lower case. -/
def IsHexDigit (c : Char) : Prop := ('0' ≤ c ∧ c ≤ '9') ∨ ('a' ≤ c ∧ c ≤ 'f')

instance : DecidablePred IsHexDigit := fun _ => inferInstanceAs (Decidable (_ ∨ _))

private theorem IsHexDigit.isIdentifierChar (h : IsHexDigit c) : IsIdentifierChar c := by
  obtain h | h := h
  · exact .inr (.inr (.inl h))
  · exact .inl ⟨h.1, Char.le_trans h.2 (by decide)⟩

/-- The value of a hexadecimal digit. -/
def hexValue (c : Char) : Nat := if c ≤ '9' then c.toNat - '0'.toNat else c.toNat - 'a'.toNat + 10

/-- The number that hexadecimal digits write. -/
def readHex (cs : List Char) : Nat := cs.foldl (fun n c => 16 * n + hexValue c) 0

private theorem readHex_concat (cs : List Char) (c : Char) :
    readHex (cs ++ [c]) = 16 * readHex cs + hexValue c := by
  rw [readHex, List.foldl_append]
  rfl

private theorem readHex_replicate_zero (k : Nat) (cs : List Char) :
    readHex (List.replicate k '0' ++ cs) = readHex cs := by
  induction k with
  | zero => rfl
  | succ k ih => exact ih

private theorem digitChar_hex : ∀ d < 16, IsHexDigit d.digitChar ∧ hexValue d.digitChar = d := by
  decide

/-- A number is written with hexadecimal digits that read back as the number. -/
private theorem toDigits_hex (n : Nat) :
    (∀ c ∈ Nat.toDigits 16 n, IsHexDigit c) ∧ readHex (Nat.toDigits 16 n) = n := by
  induction n using Nat.strongRecOn with
  | ind n ih =>
    rw [Nat.toDigits_eq_if (by decide)]
    split
    · next hlt =>
      obtain ⟨hdigit, hvalue⟩ := digitChar_hex n hlt
      exact ⟨List.forall_mem_singleton.mpr hdigit, (Nat.zero_add _).trans hvalue⟩
    · next hge =>
      obtain ⟨hdigits, hread⟩ := ih (n / 16) (by omega)
      obtain ⟨hdigit, hvalue⟩ := digitChar_hex (n % 16) (Nat.mod_lt _ (by decide))
      refine ⟨List.forall_mem_append.mpr ⟨hdigits, List.forall_mem_singleton.mpr hdigit⟩, ?_⟩
      rw [readHex_concat, hread, hvalue]
      exact Nat.div_add_mod n 16

private theorem length_hexDigits (w : UInt64) : (hexDigits w).length = 16 := by
  have hle : (Nat.toDigits 16 w.toNat).length ≤ 16 :=
    (Nat.length_toDigits_le_iff (by decide) (by decide)).mpr w.toNat_lt
  rw [hexDigits, List.length_append, List.length_replicate, Nat.sub_add_cancel hle]

private theorem isHexDigit_of_mem_hexDigits {w : UInt64} (h : c ∈ hexDigits w) : IsHexDigit c := by
  obtain h | h := List.mem_append.mp h
  · obtain rfl := List.eq_of_mem_replicate h
    decide
  · exact (toDigits_hex w.toNat).1 c h

private theorem readHex_hexDigits (w : UInt64) : readHex (hexDigits w) = w.toNat := by
  rw [hexDigits, readHex_replicate_zero, (toDigits_hex w.toNat).2]

end Digest

/-! ### The name -/

private theorem kernelName?_of_le (h : (fullName ops).utf8ByteSize ≤ maxLength) :
    kernelName? ops maxLength = some (fullName ops) :=
  if_pos h

/-- A name that is too long can be cut. -/
private theorem exists_kernelName?_of_lt (h : maxLength < (fullName ops).utf8ByteSize) :
    ∃ start rest, fullName ops = start ++ rest ∧ start.utf8ByteSize = maxLength ∧
      kernelName? ops maxLength =
        some (start ++ "__" ++
          String.ofList (Digest.hexDigits (Digest.ofText (fullName ops)))) := by
  have hcut := (isIdentifier_fullName ops).firstBytes?_eq (Nat.le_of_lt h)
  obtain ⟨rest, happend, hsize⟩ := firstBytes?_eq_some_iff.mp hcut
  refine ⟨_, rest, happend, hsize, ?_⟩
  rw [kernelName?, if_neg (Nat.not_le.mpr h), hcut, Option.map_some]

private theorem isSome_kernelName? (ops : List String) (maxLength : Nat) :
    (kernelName? ops maxLength).isSome := by
  rcases Nat.lt_or_ge maxLength (fullName ops).utf8ByteSize with hlt | hle
  · obtain ⟨start, rest, -, -, hname⟩ := exists_kernelName?_of_lt hlt
    rw [hname, Option.isSome_some]
  · rw [kernelName?_of_le hle, Option.isSome_some]

/-- The name for a list of operators, cut to a given number of bytes if it has more. -/
def kernelName (ops : List String) (maxLength : Nat) : String :=
  (kernelName? ops maxLength).get (isSome_kernelName? ops maxLength)

/-- Every list of operators has a name. -/
theorem kernelName?_eq (ops : List String) (maxLength : Nat) :
    kernelName? ops maxLength = some (kernelName ops maxLength) :=
  (Option.some_get _).symm

/-- **Names are identifiers.** Whatever the operators are called and wherever a name has to be cut,
there is a name for them, and it is made of letters, digits and underscores. It is the full name if
that has no more bytes than are allowed. If it has more, it can be cut behind the last byte that is
allowed, since no character goes on there, and the name is made of the bytes up to the cut, two
underscores, and sixteen hexadecimal digits, which write the hash of the full name. -/
theorem kernelName?_isIdentifier (ops : List String) (maxLength : Nat) :
    ∃ name, kernelName? ops maxLength = some name ∧ IsIdentifier name ∧
      if (fullName ops).utf8ByteSize ≤ maxLength then name = fullName ops
      else String.Pos.Raw.IsValid (fullName ops) ⟨maxLength⟩ ∧
        ∃ start digits, name = start ++ "__" ++ String.ofList digits ∧
          start.utf8ByteSize = maxLength ∧
          start.toUTF8 = (fullName ops).toUTF8.extract 0 maxLength ∧
          digits.length = 16 ∧ (∀ c ∈ digits, Digest.IsHexDigit c) ∧
          Digest.readHex digits = (Digest.ofText (fullName ops)).toNat := by
  split
  · next hle => exact ⟨_, kernelName?_of_le hle, isIdentifier_fullName ops, rfl⟩
  · next hlt =>
    obtain ⟨start, rest, happend, hsize, hname⟩ := exists_kernelName?_of_lt (Nat.not_le.mp hlt)
    have hfull := isIdentifier_fullName ops
    rw [happend] at hfull
    have hdigits : ∀ c ∈ Digest.hexDigits (Digest.ofText (fullName ops)), Digest.IsHexDigit c :=
      fun c hc => Digest.isHexDigit_of_mem_hexDigits hc
    refine ⟨_, hname, ?_, ?_, start, _, rfl, hsize, ?_, Digest.length_hexDigits _, hdigits,
      Digest.readHex_hexDigits _⟩
    · refine isIdentifier_append_iff.mpr
        ⟨isIdentifier_append_iff.mpr ⟨?_, by decide⟩, fun c hc => ?_⟩
      · exact (isIdentifier_append_iff.mp hfull).1
      · rw [String.toList_ofList] at hc
        exact (hdigits c hc).isIdentifierChar
    · exact String.Pos.Raw.isValid_iff_exists_append.mpr ⟨start, rest, happend, hsize ▸ rfl⟩
    · rw [String.toUTF8_eq_toByteArray, String.toUTF8_eq_toByteArray, happend,
        String.toByteArray_append]
      exact (ByteArray.extract_append_eq_left (hsize ▸ String.size_toByteArray.symm)).symm

/-- A name of ten characters, two of which stand for wider ones, is cut behind its seventh byte. -/
example : kernelName? ["é.x€"] 7 = some "fused____f49e2d70db551c44" := by cbv

end TensorLowering
