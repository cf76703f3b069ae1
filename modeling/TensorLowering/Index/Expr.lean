import TensorLowering.DataType
import TensorLowering.Digest.SipHash

/-!
# Index expressions

Dimensions of tensors and guards of specializations are scalar integer expressions over symbolic
variables. `IndexExpr.unknown` is a dimension whose extent is only known when the program runs; each
occurrence stands for a value of its own.

Nothing is simplified on construction. A variable is told apart from others by its number, name
and element type together; no number is drawn twice, so in practice the number alone decides.

Numbers are drawn at random. `SymVar.before` orders variables by number first, so which of two
variables comes before the other is a matter of chance, and it may be the other way round when the
same program runs again.
-/

namespace TensorLowering

/-- The number of a symbolic variable. -/
structure SymId where
  /-- The lot that was drawn. Nothing is known about it. -/
  lot : Nat
  /-- How many numbers had been drawn before. It stands for the fact that a number is never drawn
  twice, whatever the lots are. -/
  draw : Nat
deriving DecidableEq, Repr, Inhabited

namespace SymId

/-- The number of a variable that is declared: declared variables stand in the order of their
declarations. -/
def declared (n : Nat) : SymId := ⟨n, n⟩

instance : Coe Nat SymId := ⟨declared⟩

instance (n : Nat) : OfNat SymId n := ⟨declared n⟩

/-- Lots that look random: a hash of the draw. -/
def scattered (draw : Nat) : Nat := (Digest.ofText (toString draw)).toNat

/-- The order of numbers is that of their lots. -/
def before (i j : SymId) : Bool := i.lot < j.lot || (i.lot == j.lot && i.draw < j.draw)

end SymId

/-- A symbolic scalar variable. -/
structure SymVar where
  /-- The number the variable got when it was created. -/
  id : SymId
  /-- The name shown for the variable; it does not identify it. -/
  name : String
  /-- The element type of the variable. -/
  dtype : DataType
deriving DecidableEq, Repr, Inhabited

/-- A number that tells the element types apart. -/
def DataType.code : DataType → Nat
  | .int bits => 4 * bits.toNat
  | .uint bits => 4 * bits.toNat + 1
  | .float bits => 4 * bits.toNat + 2
  | .bool => 3

/-- The order of the terms of a sum: by number, then by name, then by element type. -/
def SymVar.before (v w : SymVar) : Bool :=
  v.id.before w.id || (v.id == w.id &&
    (v.name < w.name || (v.name == w.name && v.dtype.code < w.dtype.code)))

/-- Arithmetic operators. -/
inductive ArithOp where
  | add | sub | mul | floorDiv | floorMod | min | max
deriving DecidableEq, Repr, Inhabited

/-- Comparison operators. -/
inductive CompareOp where
  | eq | ne | lt | le | gt | ge
deriving DecidableEq, Repr, Inhabited

/-- A scalar integer expression. -/
inductive IndexExpr where
  /-- An integer of a given element type. -/
  | imm (value : Int) (dtype : DataType)
  /-- A symbolic variable. -/
  | var (v : SymVar)
  /-- A dimension whose extent is unknown until the program runs. -/
  | unknown
  /-- Arithmetic on two operands. -/
  | arith (op : ArithOp) (lhs rhs : IndexExpr)
  /-- A comparison of two operands. -/
  | compare (op : CompareOp) (lhs rhs : IndexExpr)
  /-- Both operands hold. -/
  | and (lhs rhs : IndexExpr)
  /-- One of the operands holds. -/
  | or (lhs rhs : IndexExpr)
  /-- The operand does not hold. -/
  | not (operand : IndexExpr)
deriving DecidableEq, Repr, Inhabited

namespace ArithOp

/-- The symbol or name of an operator. -/
def text : ArithOp → String
  | .add => "+"
  | .sub => "-"
  | .mul => "*"
  | .floorDiv => "floordiv"
  | .floorMod => "floormod"
  | .min => "min"
  | .max => "max"

/-- Whether the operator is written between its operands. -/
def isSymbol : ArithOp → Bool
  | .add | .sub | .mul => true
  | .floorDiv | .floorMod | .min | .max => false

end ArithOp

/-- The symbol of a comparison. -/
def CompareOp.text : CompareOp → String
  | .eq => "=="
  | .ne => "!="
  | .lt => "<"
  | .le => "<="
  | .gt => ">"
  | .ge => ">="

namespace IndexExpr

/-- A truth value: `1` or `0` of type `bool`. -/
def ofBool (b : Bool) : IndexExpr := .imm (if b then 1 else 0) .bool

/-- An immediate of the element type that dimensions have before normalization. -/
def ofInt (n : Int) : IndexExpr := .imm n .int64

/-- The element type: that of the leftmost operand for arithmetic, `bool` for logic. -/
def dtype : IndexExpr → DataType
  | .imm _ t => t
  | .var v => v.dtype
  | .unknown => .int32
  | .arith _ lhs _ => lhs.dtype
  | .compare .. | .and .. | .or .. | .not _ => .bool

/-- The value of an immediate; no other expression has one. -/
def value? : IndexExpr → Option Int
  | .imm n _ => some n
  | _ => none

/-- Whether an unknown dimension occurs in the expression. -/
def hasUnknown : IndexExpr → Bool
  | .imm .. | .var _ => false
  | .unknown => true
  | .arith _ lhs rhs | .compare _ lhs rhs | .and lhs rhs | .or lhs rhs =>
    lhs.hasUnknown || rhs.hasUnknown
  | .not operand => operand.hasUnknown

/-- The text of an immediate: truth values by name, 64-bit integers with their type. -/
def immText (n : Int) : DataType → String
  | .bool => if n = 0 then "false" else "true"
  | .int 64 => toString n ++ "i64"
  | _ => toString n

/-- The text of an expression, fully parenthesized. -/
def text : IndexExpr → String
  | .imm n t => immText n t
  | .var v => v.name
  | .unknown => "?"
  | .arith op lhs rhs =>
    if op.isSymbol then "(" ++ lhs.text ++ " " ++ op.text ++ " " ++ rhs.text ++ ")"
    else op.text ++ "(" ++ lhs.text ++ ", " ++ rhs.text ++ ")"
  | .compare op lhs rhs => "(" ++ lhs.text ++ " " ++ op.text ++ " " ++ rhs.text ++ ")"
  | .and lhs rhs => "(" ++ lhs.text ++ " && " ++ rhs.text ++ ")"
  | .or lhs rhs => "(" ++ lhs.text ++ " || " ++ rhs.text ++ ")"
  | .not operand => "!" ++ operand.text

end IndexExpr

end TensorLowering
