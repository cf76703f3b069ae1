import TensorLowering.Binary64.Basic

/-!
# The shortest decimal of a double

A finite non-zero double is `m · 2 ^ q`. The reals that round to it form an interval around it,
with both ends included exactly when `m` is even. `shortest` walks over the decimal grids from
one digit on and stops at the first grid on which one of the two neighbours of the value lies in
the interval; of two such neighbours it takes the nearer, and the upper one of a tie. All
comparisons are exact, in natural numbers.

`text` lays the digits out: positionally with at least one digit after the point when the
magnitude is at least `10 ^ -4` and less than `10 ^ 16`, and with an exponent otherwise.
-/

namespace TensorLowering.Binary64

/-- A positive decimal `0.d₁d₂… · 10 ^ (exponent + 1)`: `exponent` belongs to the first digit. -/
structure Decimal where
  /-- The digits, most significant first, without a zero at either end. -/
  digits : List Char
  /-- The power of ten of the first digit. -/
  exponent : Int
deriving DecidableEq, Repr

/-- The integer significand of a finite pattern. -/
def significand (x : Binary64) : Nat :=
  if x.exponentField = 0 then x.fractionField else x.fractionField + 1 <<< 52

/-- The power of two that the significand is scaled by. -/
def scale (x : Binary64) : Int :=
  if x.exponentField = 0 then -1074 else (x.exponentField : Int) - 1075

/-- The neighbour below is half as far away as the one above: at a power of two that is not the
least normal number. -/
def narrowBelow (x : Binary64) : Bool := x.fractionField == 0 && 1 < x.exponentField

/-- The largest `n` with `10 ^ n ≤ num / den`, for a quotient of at least one. -/
private def floorLog (num den : Nat) : Nat := (Nat.toDigits 10 (num / den)).length - 1

/-- The least `n` with `den ≤ num · 10 ^ n`, searched for up to `fuel`. -/
private def leadingZeros (num den : Nat) : Nat → Nat
  | 0 => 0
  | fuel + 1 => if den ≤ num then 0 else leadingZeros (num * 10) den fuel + 1

/-- The power of ten of the first digit of a finite non-zero pattern. -/
def leadingExponent (x : Binary64) : Int :=
  let num := x.significand <<< x.scale.toNat
  let den := 1 <<< (-x.scale).toNat
  if den ≤ num then floorLog num den else -(leadingZeros num den 400 : Int)

/-- A multiple of `10 ^ k` that rounds to `x`: the nearer of the value's two neighbours on that
grid, the upper one if they are equally near. -/
def nearestOnGrid? (x : Binary64) (k : Int) : Option Nat :=
  -- everything is measured in units of `2 ^ (scale - 2)`, brought over one denominator
  let unit := Nat.pow 10 (-k).toNat <<< (x.scale - 2).toNat
  let step := Nat.pow 10 k.toNat <<< (2 - x.scale).toNat
  let value := 4 * x.significand * unit
  let low := (4 * x.significand - if x.narrowBelow then 1 else 2) * unit
  let high := (4 * x.significand + 2) * unit
  let inside := fun n : Nat =>
    if x.significand % 2 = 0 then low ≤ n && n ≤ high else low < n && n < high
  let below := value / step
  let lower := inside (below * step)
  let upper := inside ((below + 1) * step)
  if upper && (!lower || (below + 1) * step - value ≤ value - below * step) then some (below + 1)
  else if lower then some below
  else none

/-- The decimal `n · 10 ^ k` in normal form. -/
private def normalize (n : Nat) (k : Int) : Decimal :=
  let digits := Nat.toDigits 10 n
  ⟨(digits.reverse.dropWhile (· == '0')).reverse, k + digits.length - 1⟩

/-- The shortest decimal that rounds to a finite non-zero pattern, of those the nearest. -/
def shortest (x : Binary64) : Decimal :=
  let e := x.leadingExponent
  let found := (List.range 17).findSome? fun (places : Nat) =>
    (x.nearestOnGrid? (e - places)).map fun n => normalize n (e - places)
  found.getD ⟨['0'], 0⟩

/-- Digits with a point after the power of ten `0`, and at least one digit on either side. -/
private def positional (d : Decimal) : List Char :=
  if d.exponent < 0 then
    ['0', '.'] ++ List.replicate (-d.exponent - 1).toNat '0' ++ d.digits
  else
    let places := d.exponent.toNat + 1
    let whole := d.digits.take places ++ List.replicate (places - d.digits.length) '0'
    let rest := d.digits.drop places
    whole ++ ['.'] ++ if rest.isEmpty then ['0'] else rest

/-- The first digit, the others after a point, and the power of ten. -/
private def scientific (d : Decimal) : List Char :=
  let point := if d.digits.length ≤ 1 then [] else ['.']
  d.digits.take 1 ++ point ++ d.digits.drop 1 ++ ['e'] ++ (toString d.exponent).toList

/-- The text of a double. -/
def text (x : Binary64) : String :=
  if x.isNaN then "NaN"
  else
    let unsigned : List Char :=
      if !x.isFinite then ['i', 'n', 'f']
      else if x.magnitude = 0 then ['0', '.', '0']
      else
        let d := x.shortest
        if -4 ≤ d.exponent && d.exponent < 16 then positional d else scientific d
    String.ofList ((if x.negative then ['-'] else []) ++ unsigned)

end TensorLowering.Binary64
