import FieldShow.Geometry.Angle
import FieldShow.Numeric.Root

/-!
Places and displacements on the field. Both axes count units, sixteen to a step; `x` grows to
the east and `y` to the south. Arithmetic stops at the ends of the 32-bit range.
-/

namespace FieldShow

open Numeric

def unitsPerStep : Nat := 16

structure Vec where
  x : Int32
  y : Int32
deriving DecidableEq, Repr, Inhabited, Ord

namespace Vec

def zero : Vec := ⟨0, 0⟩

instance : Zero Vec := ⟨zero⟩

def ofSteps (x y : Int32) : Vec := ⟨x * 16, y * 16⟩

instance : Add Vec where
  add v w := ⟨saturate (v.x.toInt + w.x.toInt), saturate (v.y.toInt + w.y.toInt)⟩

instance : Sub Vec where
  sub v w := ⟨saturate (v.x.toInt - w.x.toInt), saturate (v.y.toInt - w.y.toInt)⟩

instance : Neg Vec where
  neg v := ⟨saturate (-v.x.toInt), saturate (-v.y.toInt)⟩

theorem add_def (v w : Vec) :
    v + w = ⟨saturate (v.x.toInt + w.x.toInt), saturate (v.y.toInt + w.y.toInt)⟩ := rfl

theorem sub_def (v w : Vec) :
    v - w = ⟨saturate (v.x.toInt - w.x.toInt), saturate (v.y.toInt - w.y.toInt)⟩ := rfl

/-- How far from the origin a place of a show may lie along each axis. -/
def limit : Nat := 1 <<< 24

def InRange (v : Vec) : Prop := v.x.toInt.natAbs ≤ limit ∧ v.y.toInt.natAbs ≤ limit

instance (v : Vec) : Decidable v.InRange := inferInstanceAs (Decidable (_ ∧ _))

def steps (units : Int32) : Float := .ofInt units.toInt / 16

/-- Steps as units, to the nearest unit and a half away from zero. -/
def units (steps : Float) : Int32 := toInt32 nearest (steps * 16)

def length (v : Vec) : Float :=
  (steps v.x * steps v.x + steps v.y * steps v.y).sqrt

/-- The length in strides: an exact diagonal takes one stride for each step along an axis. -/
def strides (v : Vec) : Float :=
  if v.x = v.y ∨ v.x = -v.y then (steps v.x).abs else v.length

def unitLength (v : Vec) : Float :=
  root (v.x.toInt.natAbs * v.x.toInt.natAbs + v.y.toInt.natAbs * v.y.toInt.natAbs)

/-- The direction in degrees, from above -180 to 180; the zero vector points east. -/
def direction (v : Vec) : Float := Angle.ofRadians (angleOf v.x.toInt (-v.y.toInt))

def directionTo (v w : Vec) : Float := (w - v).direction

def distanceSq (v w : Vec) : Int :=
  let dx := v.x.toInt - w.x.toInt
  let dy := v.y.toInt - w.y.toInt
  dx * dx + dy * dy

def polar (deg steps : Float) : Vec :=
  ⟨units (Angle.cos deg * steps), units (-Angle.sin deg * steps)⟩

def diagonalStride : Float := 1.4142135623730951

/-- A number of strides in a direction: along a diagonal each covers a step on both axes. -/
def march (deg strides : Float) : Vec :=
  polar deg (if Angle.isDiagonal deg then strides * diagonalStride else strides)

structure Legs where
  straight : Vec
  diagonal : Vec
deriving DecidableEq, Repr

/-- The diagonal takes the smaller component of `v` whole, the axis what the larger has more. -/
def legs (v : Vec) : Legs :=
  let opposed := (v.x < 0) != (v.y < 0)
  if v.y.toInt.natAbs < v.x.toInt.natAbs then
    let dx := if opposed then saturate (-v.y.toInt) else v.y
    ⟨⟨saturate (v.x.toInt - dx.toInt), 0⟩, ⟨dx, v.y⟩⟩
  else
    let dy := if opposed then saturate (-v.x.toInt) else v.x
    ⟨⟨0, saturate (v.y.toInt - dy.toInt)⟩, ⟨v.x, dy⟩⟩

/-- The multiple of `size` nearest to `a`, a half going away from zero; every integer is a
multiple of a size of zero. -/
def gridLine (size a : Int32) : Int32 :=
  let m := size.toInt.natAbs
  if m = 0 then a
  else
    let n := (a.toInt.natAbs + m / 2) / m * m
    saturate (if a < 0 then -(n : Int) else n)

def snap (size : Int32) (v : Vec) : Vec := ⟨gridLine size v.x, gridLine size v.y⟩

end Vec
end FieldShow
