import FieldShow.Numeric.Circle

/-!
Angles in degrees: east is zero and angles grow counter-clockwise. A normal angle lies in
`[0, 360)`, a signed one in `[-180, 180)`.
-/

namespace FieldShow

open Numeric

/-- Differences below this count as none. -/
def tolerance : Float := 0.00001

def nearZero (v : Float) : Bool := v.abs < tolerance

namespace Angle

/-- What is left of `q` degrees, at least a turn, after whole turns. It is exact: from one turn on,
angles are multiples of `2 ^ (-44)`. -/
def afterTurns (q : Rat) : Float :=
  ofScaled ((q - 360 * whole (q / 360)) * (1 <<< 44 : Nat)).floor 44

/-- What is left of `deg` after whole turns, with the sign of `deg`, also where it is zero. -/
def remainder (deg : Float) : Float :=
  match rational? deg with
  | none => 0 / 0
  | some q =>
    if -360 < q ∧ q < 360 then deg
    else if q < 0 then -afterTurns (-q)
    else afterTurns q

/-- The angle in `[0, 360)` with the direction of `deg`. An angle just below zero rounds up to a
full turn, which is zero again. -/
def normalize (deg : Float) : Float :=
  let rest := remainder deg
  let rest := if rest < 0 then rest + 360 else rest
  if 360 ≤ rest then 0 else rest

/-- The angle in `[-180, 180)` with the direction of `deg`. -/
def signed (deg : Float) : Float := normalize (deg + 180) - 180

def isDiagonal (deg : Float) : Bool :=
  [45, 135, 225, 315].any fun d => nearZero (normalize deg - d)

def pi : Float := 3.141592653589793

def toRadians (deg : Float) : Float := deg * (pi / 180)

def ofRadians (rad : Float) : Float := rad * (180 / pi)

def sin (deg : Float) : Float := Numeric.sin (toRadians deg)

def cos (deg : Float) : Float := Numeric.cos (toRadians deg)

end Angle
end FieldShow
