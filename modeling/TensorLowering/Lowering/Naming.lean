import TensorLowering.Digest.SipHash

/-!
# Names of lowered functions

A lowered function is named after the operators in it, which are joined by underscores. In the
name of an operator, characters that do not belong into an identifier become underscores, one for
each. A name that has more bytes than a given number is cut there and marked with the hash of the
whole name.

A text can be cut only between two characters (`firstBytes?`). A name that would have to be cut
inside of one has no cut form (`kernelName?`).
-/

namespace TensorLowering

/-- Whether a character may stand in a name. -/
def isNameChar (c : Char) : Bool := c.isAlphanum

/-- What stands for a character in a name. -/
def nameChar (c : Char) : Char := if isNameChar c then c else '_'

/-- An operator as it stands in a name. -/
def identifier (op : String) : String := op.map nameChar

/-- The full name for a list of operators. -/
def fullName (ops : List String) : String :=
  if ops.isEmpty then "fused" else "fused_" ++ "_".intercalate (ops.map identifier)

/-- The first bytes of a text, if they end between two of its characters or at one of its ends. -/
def firstBytes? (s : String) (n : Nat) : Option String :=
  if h : String.Pos.Raw.IsValid s ⟨n⟩ then some (s.sliceTo (s.pos ⟨n⟩ h)).copy else none

/-- The name for a list of operators, cut to a given number of bytes if it has more. -/
def kernelName? (ops : List String) (maxLength : Nat) : Option String :=
  let name := fullName ops
  if name.utf8ByteSize ≤ maxLength then some name
  else (firstBytes? name maxLength).map fun start =>
    start ++ "__" ++ String.ofList (Digest.hexDigits (Digest.ofText name))

end TensorLowering
