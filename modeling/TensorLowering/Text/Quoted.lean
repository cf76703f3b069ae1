import TensorLowering.Text.Plain

/-!
# Quoted text

`quoted s` writes `s` between double quotes so that a reader can tell every character: a quote
and a backslash get a backslash in front, the common control characters their letter, and
whatever is not plain (`isPlain`) its number in hexadecimal.
-/

namespace TensorLowering.Text

/-- A number in lower-case hexadecimal, without leading zeros. -/
def hex (n : Nat) : List Char := Nat.toDigits 16 n

/-- How one character is written inside quotes. -/
def escaped (c : Char) : List Char :=
  if c = '"' then ['\\', '"']
  else if c = '\\' then ['\\', '\\']
  else if c = '\n' then ['\\', 'n']
  else if c = '\r' then ['\\', 'r']
  else if c = '\t' then ['\\', 't']
  else if c = '\x00' then ['\\', '0']
  else if isPlain c then [c]
  else ['\\', 'u', '\x7b'] ++ hex c.toNat ++ ['\x7d']

/-- The text between double quotes, escaped character by character. -/
def quoted (s : String) : String :=
  String.ofList ('"' :: s.toList.flatMap escaped ++ ['"'])

/-- Texts one after the other with `", "` between them. -/
def commaSeparated (parts : List String) : String := ", ".intercalate parts

end TensorLowering.Text
