import TensorLowering.Index.Expr
import TensorLowering.Index.Word

/-!
# Linear forms

A linear form is a sum of integer multiples of variables and a constant, `Σ cᵢ·vᵢ + c`, with the
element type it is to be written in. Its terms are kept in the order of `SymVar.before`, without
repetition and without zero coefficients, so equal sums have equal forms.

`LinearForm.ofExpr?` reads a form off an expression built from integers and integer variables
by addition, subtraction and multiplication by a constant; `LinearForm.toExpr` writes it back.
Every coefficient that is computed on the way has to fit into a word (`wordOf?`); if one does
not, there is no form.
-/

namespace TensorLowering

/-- The sum `Σ cᵢ·vᵢ + c`. -/
structure LinearForm where
  /-- The variables with their coefficients. -/
  terms : List (SymVar × Int)
  /-- The part that holds no variable. -/
  constant : Int
  /-- The element type of the sum. -/
  dtype : DataType
deriving DecidableEq, Repr

namespace LinearForm

/-- The form of a number. -/
def ofConst (n : Int) (t : DataType) : LinearForm := ⟨[], n, t⟩

/-- The form of a variable. -/
def ofVar (v : SymVar) : LinearForm := ⟨[(v, 1)], 0, v.dtype⟩

/-- Add `c·v` to a list of terms, at its place in the order. -/
def addTerm? (v : SymVar) (c : Int) : List (SymVar × Int) → Option (List (SymVar × Int))
  | [] => (wordOf? c).map fun c => [(v, c)]
  | (w, d) :: rest =>
    if v = w then (wordOf? (d + c)).map fun e => (w, e) :: rest
    else if v.before w then (wordOf? c).map fun c => (v, c) :: (w, d) :: rest
    else (addTerm? v c rest).map ((w, d) :: ·)

/-- Add every one of `others`, multiplied by `sign`, to a list of terms. -/
def addTerms? (sign : Int) (terms : List (SymVar × Int)) :
    List (SymVar × Int) → Option (List (SymVar × Int))
  | [] => some terms
  | (v, c) :: others => do
    let scaled ← wordOf? (c * sign)
    let terms ← addTerm? v scaled terms
    addTerms? sign terms others

/-- The sum of `a` and `sign` times `b`, written in the element type of `a`. -/
def add? (a b : LinearForm) (sign : Int) : Option LinearForm := do
  let terms ← addTerms? sign a.terms b.terms
  let shift ← wordOf? (b.constant * sign)
  let constant ← wordOf? (a.constant + shift)
  return ⟨terms.filter (·.2 ≠ 0), constant, a.dtype⟩

/-- Multiply every coefficient of a list of terms. -/
def scaleTerms? (factor : Int) : List (SymVar × Int) → Option (List (SymVar × Int))
  | [] => some []
  | (v, c) :: rest => do
    let c ← wordOf? (c * factor)
    let rest ← scaleTerms? factor rest
    return (v, c) :: rest

/-- The product of a form and a number. -/
def scale? (a : LinearForm) (factor : Int) : Option LinearForm :=
  if factor = 0 then some (ofConst 0 a.dtype)
  else do
    let terms ← scaleTerms? factor a.terms
    let constant ← wordOf? (a.constant * factor)
    return ⟨terms, constant, a.dtype⟩

/-- The value of a form without variables. -/
def const? (a : LinearForm) : Option Int := if a.terms.isEmpty then some a.constant else none

/-- The product of two forms, one of which has to be constant. -/
def mul? (a b : LinearForm) : Option LinearForm :=
  match a.const?, b.const? with
  | some factor, _ => b.scale? factor
  | none, some factor => a.scale? factor
  | none, none => none

/-- The form of an expression that is linear on its face. -/
def ofExpr? : IndexExpr → Option LinearForm
  | .imm n t => if t.isInt then some (ofConst n t) else none
  | .var v => if v.dtype.isInt then some (ofVar v) else none
  | .arith .add lhs rhs => do (← ofExpr? lhs).add? (← ofExpr? rhs) 1
  | .arith .sub lhs rhs => do (← ofExpr? lhs).add? (← ofExpr? rhs) (-1)
  | .arith .mul lhs rhs => do (← ofExpr? lhs).mul? (← ofExpr? rhs)
  | _ => none

/-- One term as an expression; a coefficient of one is not written. -/
def termExpr (t : DataType) (term : SymVar × Int) : IndexExpr :=
  if term.2 = 1 then .var term.1 else .arith .mul (.var term.1) (.imm term.2 t)

/-- Add further terms on the right, one after the other. -/
def sumFrom (t : DataType) (acc : IndexExpr) (terms : List (SymVar × Int)) : IndexExpr :=
  terms.foldl (fun acc term => .arith .add acc (termExpr t term)) acc

/-- A form as an expression: the terms in order, then the constant unless it is zero. -/
def toExpr (a : LinearForm) : IndexExpr :=
  match a.terms with
  | [] => .imm a.constant a.dtype
  | first :: rest =>
    let sum := sumFrom a.dtype (termExpr a.dtype first) rest
    if a.constant = 0 then sum else .arith .add sum (.imm a.constant a.dtype)

end LinearForm

end TensorLowering
