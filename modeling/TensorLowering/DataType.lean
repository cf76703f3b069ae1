/-!
# Element types

`DataType` is the element type of a tensor or of a scalar index expression. Its text is the
kind followed by the width in bits (`int32`, `float16`); `bool` has no width.
-/

namespace TensorLowering

/-- The element type of a tensor or of a scalar index expression. -/
inductive DataType where
  /-- Signed integers of the given width. -/
  | int (bits : UInt8)
  /-- Unsigned integers of the given width. -/
  | uint (bits : UInt8)
  /-- Floating-point numbers of the given width. -/
  | float (bits : UInt8)
  /-- Truth values. -/
  | bool
deriving DecidableEq, Repr, Inhabited

namespace DataType

/-- Dimensions are `int32` once a type is normalized. -/
def int32 : DataType := .int 32

/-- Dimensions are `int64` as type inference leaves them. -/
def int64 : DataType := .int 64

/-- Integer types, signed or not, are the ones linear arithmetic is done in. -/
def isInt : DataType → Bool
  | .int _ | .uint _ => true
  | .float _ | .bool => false

/-- The text of a type: kind and width. -/
def text : DataType → String
  | .int bits => "int" ++ toString bits.toNat
  | .uint bits => "uint" ++ toString bits.toNat
  | .float bits => "float" ++ toString bits.toNat
  | .bool => "bool"

end DataType

end TensorLowering
