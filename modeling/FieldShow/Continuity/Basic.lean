import FieldShow.Geometry.Vec

/-!
The continuity language: what the marchers of one symbol do on one sheet. A program is a list of
statements over numeric expressions and the places that they name.
-/

namespace FieldShow

/-- A variable of a marcher. The last two hold the direction of the latest motion: of travel
(`dof`) and of the body (`doh`). -/
inductive Slot where
  | a | b | c | d | x | y | z | dof | doh
deriving DecidableEq, Repr

/-- A named number: a compass direction in degrees or a step size in steps a beat. -/
inductive Constant where
  | north | northwest | west | southwest | south | southeast | east | northeast
  | highStep | miniMilitary | showHigh | jerkyStep | grapevine | military | diagonalMilitary
deriving DecidableEq, Repr

inductive Target where
  | here
  | start
  | next
  | ref (n : UInt8)
deriving DecidableEq, Repr

inductive Expr where
  | number (x : Float)
  | constant (c : Constant)
  /-- The beats left on the sheet. -/
  | remaining
  | slot (s : Slot)
  | neg (a : Expr)
  | add (a b : Expr)
  | sub (a b : Expr)
  | mul (a b : Expr)
  | div (a b : Expr)
  /-- The direction from here to a place. -/
  | direction (p : Target)
  | directionBetween (p q : Target)
  /-- The strides from here to a place. -/
  | distance (p : Target)
  | distanceBetween (p q : Target)
  /-- Of two directions, the smaller turn away from a place. -/
  | nearer (a b : Expr) (p : Target)
  | opposite (a : Expr)
  /-- The beats of a step drill: the strides to a place times beats for each block. -/
  | stepDrill (beats block : Expr) (p : Target)
deriving DecidableEq, Repr

inductive Action where
  | assign (s : Slot) (value : Expr)
  /-- Straight to the next sheet in all the beats that are left. -/
  | blam
  | countermarch (entry through : Target) (steps first second beats : Expr)
  /-- A countermarch in diagonal military, its directions told by the two places. -/
  | diagonalCountermarch (entry through : Target) (beats : Expr)
  /-- A countermarch in high step, its directions told by the two places. -/
  | straightCountermarch (entry through : Target) (beats : Expr)
  | diagonalFirst (p : Target)
  | straightFirst (p : Target)
  | eastWestFirst (p : Target)
  | northSouthFirst (p : Target)
  /-- Straight to a place in a number of beats; below zero, facing backwards. -/
  | evenly (beats : Expr) (p : Target)
  /-- Two legs in two directions, one after the other, to a place. -/
  | fountain (first second : Expr) (size₁ size₂ : Option Expr) (p : Target)
  | forward (steps direction : Expr)
  | forwardTo (p : Target)
  /-- To the nearest crossing of a grid, in no time. -/
  | toGrid (size : Expr)
  /-- To a place, in no time. -/
  | jump (p : Target)
  | march (size steps direction : Expr) (facing : Option Expr)
  | stand (beats direction : Expr)
  | standOut (direction : Expr)
  /-- Along an arc around a place. -/
  | wheel (angle steps : Expr) (center : Target) (backwards : Bool)
deriving DecidableEq, Repr

/-- Where a statement stands in its program. -/
structure Loc where
  line : UInt32
  col : UInt32
deriving DecidableEq, Repr

structure Statement where
  action : Action
  loc : Option Loc
deriving DecidableEq, Repr

abbrev Program := List Statement

namespace Slot

def all : List Slot := [a, b, c, d, x, y, z, dof, doh]

def index : Slot → Nat
  | a => 0 | b => 1 | c => 2 | d => 3 | x => 4 | y => 5 | z => 6 | dof => 7 | doh => 8

end Slot

namespace Constant

def all : List Constant :=
  [north, northwest, west, southwest, south, southeast, east, northeast, highStep, miniMilitary,
    showHigh, jerkyStep, grapevine, military, diagonalMilitary]

def value : Constant → Float
  | east => 0
  | northeast => 45
  | north => 90
  | northwest => 135
  | west => 180
  | southwest => 225
  | south => 270
  | southeast => 315
  | highStep | miniMilitary | grapevine => 1
  | showHigh | jerkyStep => 0.5
  | military => 4 / 3
  | diagonalMilitary => Vec.diagonalStride

end Constant
end FieldShow
