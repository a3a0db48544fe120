import FieldShow.Routine.Progress

/-!
Fountains: how many beats to go in each of two directions to come to a place. Divisions are kept
apart from their results, so that every divisor can be seen.
-/

namespace FieldShow

/-- What a marcher covers in one beat, in steps to the east and to the south. -/
structure Pace where
  x : Float
  y : Float
deriving Repr

def Pace.polar (deg size : Float) : Pace := ⟨size * Angle.cos deg, -size * Angle.sin deg⟩

def Pace.times (p : Pace) (beats : Float) : Vec :=
  ⟨Vec.units (beats * p.x), Vec.units (beats * p.y)⟩

structure Quotient where
  dividend : Float
  divisor : Float
deriving Repr

def Quotient.value (q : Quotient) : Float := q.dividend / q.divisor

/-- How two paces lead to a place: one after the other, in one and the same direction, or not at
all. -/
inductive Meeting where
  | crossing (first second : Quotient)
  | parallel (beats : Quotient)
  | impossible
deriving Repr

namespace Meeting

def quotients : Meeting → List Quotient
  | crossing first second => [first, second]
  | parallel beats => [beats]
  | impossible => []

/-- The meeting of two paces at a place that lies `x` and `y` steps away, by Cramer's rule. -/
def of (p q : Pace) (x y : Float) : Meeting :=
  let det := p.x * q.y - q.x * p.y
  if nearZero det then
    if nearZero (p.x - q.x) ∧ nearZero (p.y - q.y) ∧ nearZero (x * p.y - p.x * y) then
      parallel (if nearZero p.y then ⟨x, p.x⟩ else ⟨y, p.y⟩)
    else impossible
  else crossing ⟨q.y * x - q.x * y, det⟩ ⟨p.x * y - p.y * x, det⟩

def leg (p : Pace) (beats : Float) : List (Noted Motion) :=
  if nearZero beats then []
  else [(fun n => .line n (p.times beats)) <$> toBeats beats]

def legs (p q : Pace) (v : Vec) : Meeting → Noted (List (Noted Motion))
  | crossing first second => pure (leg p first.value ++ leg q second.value)
  | parallel beats => pure [(fun n => .line n v) <$> toBeats beats.value]
  | impossible => .despite .badFountain []

end Meeting
end FieldShow
