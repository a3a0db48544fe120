import FieldShow.Geometry.Vec
import FieldShow.Geometry.Compass

/-!
One motion of one marcher: standing, a straight line or an arc. A cursor counts the beats that
have passed. A motion may be cut short, yet its path keeps the beats that it was laid out for,
so that a cut never changes the pace.
-/

namespace FieldShow

/-- Where a motion leads. Angles are in degrees and the radius is in units; `span` is the number
of beats for the whole of it. -/
inductive Path where
  | stand (facing : Float)
  | line (shift : Vec) (span : Nat) (facing : Float)
  | arc (center : Vec) (radius start finish : Float) (span : Nat) (backwards : Bool)
deriving DecidableEq, Repr

structure Motion where
  beats : Nat
  cursor : Nat
  path : Path
deriving DecidableEq, Repr

namespace Motion

def stand (beats : Nat) (facing : Float) : Motion := ⟨beats, 0, .stand facing⟩

def lineFacing (beats : Nat) (shift : Vec) (facing : Float) : Motion :=
  ⟨beats, 0, .line shift beats facing⟩

def line (beats : Nat) (shift : Vec) : Motion :=
  lineFacing beats shift (Angle.normalize shift.direction)

def arc (beats : Nat) (center : Vec) (radius start finish : Float) (backwards : Bool) : Motion :=
  ⟨beats, 0, .arc center radius start finish beats backwards⟩

def clip (n : Nat) (m : Motion) : Motion :=
  { m with beats := min m.beats n, cursor := min m.cursor (min m.beats n) }

def rewind (m : Motion) : Motion := { m with cursor := 0 }

end Motion

namespace Path

/-- The part of a line covered after `k` beats, each axis rounded down: whole beats never drift
from the total. Nothing is covered bit by bit when the whole takes no time. -/
def offset (k : Nat) : Path → Vec
  | line shift span _ =>
    if span = 0 then 0
    else ⟨.ofInt (shift.x.toInt * k / span), .ofInt (shift.y.toInt * k / span)⟩
  | _ => 0

def jump : Path → Vec
  | line shift 0 _ => shift
  | _ => 0

def angleAt (k : Nat) : Path → Float
  | arc _ _ start finish span _ =>
    if span = 0 then start else start + (finish - start) * .ofNat k / .ofNat span
  | _ => 0

def place (deg : Float) : Path → Vec
  | arc center radius .. =>
    ⟨Numeric.toInt32 Numeric.nearest (.ofInt center.x.toInt + Angle.cos deg * radius),
      Numeric.toInt32 Numeric.nearest (.ofInt center.y.toInt - Angle.sin deg * radius)⟩
  | _ => 0

end Path

namespace Motion

/-- The direction in which the body points. On an arc it lies square to the radius. -/
def heading (m : Motion) : Float :=
  match m.path with
  | .stand facing => Angle.normalize facing
  | .line _ _ facing => Angle.normalize facing
  | .arc _ _ start finish _ backwards =>
    let quarter : Float := if backwards then -90 else 90
    let angle := m.path.angleAt m.cursor
    if start < finish then Angle.normalize (angle + quarter) else Angle.normalize (angle - quarter)

def course (m : Motion) : Float :=
  match m.path with
  | .line shift .. => Angle.normalize shift.direction
  | _ => m.heading

def facing (m : Motion) : Compass := .ofAngle m.heading

end Motion
end FieldShow
