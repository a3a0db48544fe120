import FieldShow.Json.Value
import FieldShow.Numeric.Decimal

/-! Numbers digit by digit, and the JSON numbers they stand for. -/

namespace FieldShow

open Numeric

/-- A number as it is written. Without fraction digits there is no point. -/
structure Numeral where
  negative : Bool
  whole : Nat
  fraction : List Char
  exponent : Option Int
deriving DecidableEq, Repr

namespace Numeral

def ofInt (n : Int) : Numeral := ⟨n < 0, n.natAbs, [], none⟩

/-- The integer, if the number is written as one. Negative zero is not. -/
def toInt? (n : Numeral) : Option Int :=
  if n.fraction = [] ∧ n.exponent = none ∧ ¬(n.negative ∧ n.whole = 0) then
    some (if n.negative then -n.whole else n.whole)
  else none

def magnitude (n : Numeral) : Decimal :=
  ⟨Nat.ofDigitChars 10 n.fraction n.whole, n.exponent.getD 0 - n.fraction.length⟩

/-- The nearest binary64 number, infinite beyond their range. -/
def toFloat (n : Numeral) : Float :=
  if n.negative then -n.magnitude.toFloat else n.magnitude.toFloat

/-- The fewest digits that read back. From `1e-5` to below `1e16` the number is positional with
at least one place; beyond, one digit stands before the point. -/
def ofDecimal (negative : Bool) (d : Decimal) : Numeral :=
  let digits := Nat.toDigits 10 d.digits
  let power := d.exponent + digits.length - 1
  if d.digits = 0 ∨ (-5 ≤ power ∧ power < 16) then
    let (whole, fraction) := d.places
    ⟨negative, whole, if fraction = [] then ['0'] else fraction, none⟩
  else ⟨negative, Nat.ofDigitChars 10 (digits.take 1) 0, digits.drop 1, some power⟩

def ofFloat (x : Float) : Numeral := ofDecimal (signed x) (.shortest x)

def value (n : Numeral) : Json.Number :=
  match n.toInt? with
  | some i => if Json.Word i then .int i else .float n.toFloat
  | none => .float n.toFloat

def chars (n : Numeral) : List Char :=
  (if n.negative then ['-'] else []) ++ Nat.toDigits 10 n.whole ++
    (if n.fraction = [] then [] else '.' :: n.fraction) ++
    match n.exponent with
    | none => []
    | some e => 'e' :: (if e < 0 then '-' else '+') :: Nat.toDigits 10 e.natAbs

end Numeral

def Json.Number.numeral : Number → Numeral
  | int n => .ofInt n
  | float x => .ofFloat x

end FieldShow
