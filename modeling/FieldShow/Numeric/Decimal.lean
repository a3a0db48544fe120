import FieldShow.Numeric.Exact

/-!
Decimal text of binary64 numbers: the fewest digits that read back, and a fixed number of
places. Digits are found in exact rational arithmetic, and a candidate is accepted only when
reading it gives the number again.
-/

namespace FieldShow.Numeric

/-- The decimal number `digits * 10 ^ exponent`. -/
structure Decimal where
  digits : Nat
  exponent : Int
deriving DecidableEq, Repr

namespace Decimal

/-- The nearest binary64 number, infinite beyond their range. Exponents far outside of it are
not worked out. -/
def toFloat (d : Decimal) : Float :=
  if d.digits = 0 ∨ d.exponent < -400 - d.digits.log2 then 0
  else if 400 < d.exponent then 1 / 0
  else .ofScientific d.digits (d.exponent < 0) d.exponent.natAbs

def places (d : Decimal) : Nat × List Char :=
  if 0 ≤ d.exponent then (d.digits * Nat.pow 10 d.exponent.toNat, [])
  else
    let n := d.exponent.natAbs
    let fraction := Nat.toDigits 10 (d.digits % Nat.pow 10 n)
    (d.digits / Nat.pow 10 n, List.replicate (n - fraction.length) '0' ++ fraction)

def ofDyadic (q : Rat) : Decimal :=
  let n := q.den.log2
  ⟨q.num.natAbs * Nat.pow 5 n, -n⟩

def leadingPower (q : Rat) : Int :=
  if 1 ≤ q then (Nat.toDigits 10 q.floor.toNat).length - 1
  else
    match (1 / q).ceil.toNat - 1 with
    | 0 => 0
    | n => -(Nat.toDigits 10 n).length

def neighbour? (x : Float) (q : Rat) (exponent : Int) : Option Decimal :=
  let scaled := q / 10 ^ exponent
  let below : Decimal := ⟨scaled.floor.toNat, exponent⟩
  let above : Decimal := ⟨scaled.floor.toNat + 1, exponent⟩
  if below.toFloat = x then
    if above.toFloat = x ∧ 1 / 2 < scaled - scaled.floor then some above else some below
  else if above.toFloat = x then some above
  else none

/-- The fewest digits that read back as the finite number `x`, its sign aside; of two such
numbers the nearer. -/
def shortest (x : Float) : Decimal :=
  match rational? x.abs with
  | none => ⟨0, 0⟩
  | some q =>
    if q = 0 then ⟨0, 0⟩
    else ((List.range 18).findSome? fun n : Nat =>
        neighbour? x.abs q (leadingPower q + 1 - n)).getD
      (ofDyadic q)

end Decimal

def signed (x : Float) : Bool := x < 0 || 1 / x < 0

/-- Positional text with the fewest digits that read back, and no point in an integer. -/
def plainText (x : Float) : String :=
  if x.isNaN then "NaN"
  else
    let sign := if signed x then "-" else ""
    if x.isInf then sign ++ "inf"
    else
      let (whole, fraction) := (Decimal.shortest x).places
      sign ++ toString whole ++ (if fraction = [] then "" else "." ++ String.ofList fraction)

def nearestEven (q : Rat) : Int :=
  let below := q.floor
  if q - below < 1 / 2 ∨ (q - below = 1 / 2 ∧ below % 2 = 0) then below else below + 1

def fixedText (n : Nat) (x : Float) : String :=
  match rational? x with
  | none => if x.isNaN then "NaN" else if x < 0 then "-inf" else "inf"
  | some q =>
    let units := (nearestEven (q.abs * 10 ^ n)).toNat
    let (whole, fraction) := Decimal.places ⟨units, -n⟩
    (if q < 0 ∧ units ≠ 0 then "-" else "") ++ toString whole ++ "." ++ String.ofList fraction

end FieldShow.Numeric
