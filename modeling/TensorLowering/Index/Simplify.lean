import TensorLowering.Index.LinearForm

/-!
# Simplification of index expressions

`IndexExpr.simplify` works from the leaves up under a list of known values for variables. It
folds operators whose operands are numbers, writes sums, differences and constant multiples in
the normal form of their linear form, decides comparisons whose sides differ by a constant, and
shortens the logical operators. A fold whose result does not fit into a word, or that divides by
zero, is not done.

A guard is *proved* when it simplifies to a number other than zero (`IndexExpr.proves`). The
expression `n * 2 - n == n` is proved, and `n < 4` is left as it is.
-/

namespace TensorLowering

/-- What is known about variables; a later entry for a variable stands in front. -/
abbrev Bindings := List (SymVar × Int)

/-- From now on, take `v` to be `n`. -/
def Bindings.bind (known : Bindings) (v : SymVar) (n : Int) : Bindings := (v, n) :: known

/-- The value a variable is taken to have. -/
def Bindings.value? (known : Bindings) (v : SymVar) : Option Int := List.lookup v known

/-- The value of an arithmetic operator on two numbers. There is none where a result does not
fit into a word, for division by zero, and for the one quotient of words that is no word. -/
def ArithOp.eval? (op : ArithOp) (a b : Int) : Option Int :=
  match op with
  | .add => wordOf? (a + b)
  | .sub => wordOf? (a - b)
  | .mul => wordOf? (a * b)
  | .floorDiv => if b = 0 ∨ (a = -9223372036854775808 ∧ b = -1) then none else some (a.fdiv b)
  | .floorMod => if b = 0 ∨ (a = -9223372036854775808 ∧ b = -1) then none else some (a.fmod b)
  | .min => some (Min.min a b)
  | .max => some (Max.max a b)

/-- Whether a comparison holds between two numbers. -/
def CompareOp.holds (op : CompareOp) (a b : Int) : Bool :=
  match op with
  | .eq => a == b
  | .ne => a != b
  | .lt => a < b
  | .le => a ≤ b
  | .gt => a > b
  | .ge => a ≥ b

namespace IndexExpr

/-- Write an expression in the normal form of its linear form, if it has one. -/
def linearize (e : IndexExpr) : IndexExpr :=
  match LinearForm.ofExpr? e with
  | some form => form.toExpr
  | none => e

/-- The value of an operator whose operands are both immediates. -/
def foldArith? (op : ArithOp) (lhs rhs : IndexExpr) : Option Int := do
  op.eval? (← lhs.value?) (← rhs.value?)

/-- Simplify an arithmetic operator on simplified operands. -/
def simplifyArith (op : ArithOp) (lhs rhs : IndexExpr) : IndexExpr :=
  match foldArith? op lhs rhs with
  | some n => .imm n lhs.dtype
  | none => linearize (.arith op lhs rhs)

/-- The difference of two expressions, if it is constant on its face. -/
def constantDifference? (lhs rhs : IndexExpr) : Option Int := do
  let l ← LinearForm.ofExpr? lhs
  let r ← LinearForm.ofExpr? rhs
  (← l.add? r (-1)).const?

/-- Simplify a comparison of simplified operands. Operands that hold an unknown dimension are
compared only as numbers, since each occurrence of one may differ from the next. -/
def simplifyCompare (op : CompareOp) (lhs rhs : IndexExpr) : IndexExpr :=
  match lhs.value?, rhs.value? with
  | some a, some b => ofBool (op.holds a b)
  | _, _ =>
    if lhs.hasUnknown || rhs.hasUnknown then .compare op lhs rhs
    else
      match constantDifference? lhs rhs with
      | some d => ofBool (op.holds d 0)
      | none => if lhs = rhs then ofBool (op.holds 0 0) else .compare op lhs rhs

/-- Simplify a conjunction of simplified operands. -/
def simplifyAnd (lhs rhs : IndexExpr) : IndexExpr :=
  match lhs.value?, rhs.value? with
  | some a, some b => ofBool (a != 0 && b != 0)
  | some a, none => if a = 0 then ofBool false else rhs
  | none, some b => if b = 0 then ofBool false else lhs
  | none, none => .and lhs rhs

/-- Simplify a disjunction of simplified operands. -/
def simplifyOr (lhs rhs : IndexExpr) : IndexExpr :=
  match lhs.value?, rhs.value? with
  | some a, some b => ofBool (a != 0 || b != 0)
  | some a, none => if a = 0 then rhs else ofBool true
  | none, some b => if b = 0 then lhs else ofBool true
  | none, none => .or lhs rhs

/-- Simplify a negation of a simplified operand. -/
def simplifyNot (operand : IndexExpr) : IndexExpr :=
  match operand.value? with
  | some n => ofBool (n == 0)
  | none => .not operand

/-- The simplified form of an expression under known values of variables. -/
def simplify (known : Bindings) : IndexExpr → IndexExpr
  | .imm n t => .imm n t
  | .unknown => .unknown
  | .var v =>
    match known.value? v with
    | some n => .imm n v.dtype
    | none => .var v
  | .arith op lhs rhs => simplifyArith op (simplify known lhs) (simplify known rhs)
  | .compare op lhs rhs => simplifyCompare op (simplify known lhs) (simplify known rhs)
  | .and lhs rhs => simplifyAnd (simplify known lhs) (simplify known rhs)
  | .or lhs rhs => simplifyOr (simplify known lhs) (simplify known rhs)
  | .not operand => simplifyNot (simplify known operand)

/-- Whether an expression simplifies to a number other than zero. -/
def proves (known : Bindings) (e : IndexExpr) : Bool :=
  match (simplify known e).value? with
  | some n => n != 0
  | none => false

end IndexExpr

end TensorLowering
