/-!
The exact value of a binary64 number and the integers that the drill takes from it. Every
conversion rounds the exact value once and then clamps it into the range it is stored in.
-/

namespace FieldShow.Numeric

def rational? (x : Float) : Option Rat :=
  match x.toModel.unpack with
  | .zero _ => some 0
  | .finite .positive m e _ => some (m * 2 ^ e)
  | .finite .negative m e _ => some (-(m * 2 ^ e))
  | .infinity _ => none
  | .notANumber => none

/-- The nearest integer, a half going away from zero. -/
def nearest (q : Rat) : Int :=
  if q < 0 then -(-q + 1 / 2).floor else (q + 1 / 2).floor

def whole (q : Rat) : Int := q.num.tdiv q.den

def saturate (n : Int) : Int32 := .ofIntClamp n

theorem toInt_saturate (n : Int) :
    (saturate n).toInt = max (-2147483648) (min n 2147483647) := by
  have hlo : Int32.minValue.toInt = -2147483648 := rfl
  have hhi : Int32.maxValue.toInt = 2147483647 := rfl
  unfold saturate Int32.ofIntClamp
  split
  · split
    · rw [Int32.toInt_ofIntLE]
      omega
    · omega
  · omega

/-- An integer taken from a number: infinities go to the ends of the range, NaN to zero. -/
def toInt32 (rounding : Rat → Int) (x : Float) : Int32 :=
  match rational? x with
  | some q => saturate (rounding q)
  | none => if x.isNaN then 0 else if x < 0 then Int32.minValue else Int32.maxValue

def floor (x : Float) : Float :=
  match rational? x with
  | some q => .ofInt q.floor
  | none => x

/-- The binary64 number nearest to `n / 2 ^ p`, ties to even. -/
def ofScaled (n : Int) (p : Nat) : Float :=
  .ofModel (.pack (.normalize Float.Model.Format.binary64 n (-p) .positive))

end FieldShow.Numeric
