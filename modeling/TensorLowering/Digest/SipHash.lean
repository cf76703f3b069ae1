/-!
# SipHash-1-3

A keyed hash of a byte string into 64 bits, here with both keys zero: one mixing round for each
block of eight bytes and three at the end. The bytes are read as little-endian words; the last
word carries the remaining bytes and, in its top byte, the length of the input.
-/

namespace TensorLowering.Digest

/-- The four words a hash is computed in. -/
structure SipState where
  v0 : UInt64
  v1 : UInt64
  v2 : UInt64
  v3 : UInt64

/-- Rotate a word to the left by `n` bits, for `0 < n < 64`. -/
def rotateLeft (x : UInt64) (n : UInt64) : UInt64 := (x <<< n) ||| (x >>> (64 - n))

namespace SipState

/-- The state for the key of zeros. -/
def start : SipState :=
  ⟨0x736f6d6570736575, 0x646f72616e646f6d, 0x6c7967656e657261, 0x7465646279746573⟩

/-- One mixing round. -/
def round (s : SipState) : SipState :=
  let v0 := s.v0 + s.v1
  let v2 := s.v2 + s.v3
  let v1 := rotateLeft s.v1 13 ^^^ v0
  let v3 := rotateLeft s.v3 16 ^^^ v2
  let v0 := rotateLeft v0 32
  let v2 := v2 + v1
  let v0 := v0 + v3
  let v1 := rotateLeft v1 17 ^^^ v2
  let v3 := rotateLeft v3 21 ^^^ v0
  let v2 := rotateLeft v2 32
  ⟨v0, v1, v2, v3⟩

/-- Take in one word. -/
def absorb (s : SipState) (word : UInt64) : SipState :=
  let t := SipState.round { s with v3 := s.v3 ^^^ word }
  { t with v0 := t.v0 ^^^ word }

/-- The hash, after everything was taken in. -/
def finish (s : SipState) : UInt64 :=
  let t := { s with v2 := s.v2 ^^^ 0xff }.round.round.round
  t.v0 ^^^ t.v1 ^^^ t.v2 ^^^ t.v3

end SipState

/-- Bytes as one little-endian word. -/
def littleEndian (bytes : List UInt8) : UInt64 :=
  bytes.foldr (fun b acc => (acc <<< 8) ||| b.toUInt64) 0

/-- Take in a byte string: `length` counts the bytes already taken in. -/
def absorbBytes (s : SipState) (length : Nat) : List UInt8 → SipState
  | b0 :: b1 :: b2 :: b3 :: b4 :: b5 :: b6 :: b7 :: rest =>
    absorbBytes (s.absorb (littleEndian [b0, b1, b2, b3, b4, b5, b6, b7])) (length + 8) rest
  | rest =>
    let total := length + rest.length
    s.absorb (littleEndian rest ||| (UInt64.ofNat (total % 256) <<< 56))

/-- The hash of a byte string. -/
def sipHash (bytes : List UInt8) : UInt64 := (absorbBytes .start 0 bytes).finish

/-- The hash of a text: its bytes, and a byte that no text contains to mark the end. -/
def ofText (s : String) : UInt64 := sipHash (s.toUTF8.toList ++ [0xff])

/-- The sixteen lower-case hexadecimal digits of a word. -/
def hexDigits (w : UInt64) : List Char :=
  let digits := Nat.toDigits 16 w.toNat
  List.replicate (16 - digits.length) '0' ++ digits

end TensorLowering.Digest
