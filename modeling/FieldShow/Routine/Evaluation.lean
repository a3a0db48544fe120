import FieldShow.Routine.Noted
import FieldShow.Show.Basic

/-!
The values of expressions. They depend on nothing but what one marcher sees, and an expression
always has a value, whatever mistakes it makes.
-/

namespace FieldShow

/-- What a marcher sees in the course of a sheet: where it is, its own row of the sheet, its place
on the next one, the beats that are left and its variables. -/
structure Station where
  pos : Vec
  home : Placement
  next : Option Vec
  remaining : Nat
  remembered : Slot → Option Float

open Noted

/-- Where a place is. One that does not exist lies here. -/
def Target.locate (st : Station) : Target → Noted Vec
  | here => pure st.pos
  | start => pure st.home.position
  | next =>
    match st.next with
    | some v => pure v
    | none => despite .noNextSheet st.pos
  | ref n =>
    if 3 < n.toNat then despite .noSuchReference st.pos else pure (st.home.reference n.toNat)

def Slot.read (st : Station) (s : Slot) : Noted Float :=
  match st.remembered s with
  | some value => pure value
  | none => despite .unsetSlot 0

namespace Expr

def eval (st : Station) : Expr → Noted Float
  | number x => pure x
  | constant c => pure c.value
  | remaining => pure (.ofNat st.remaining)
  | slot s => s.read st
  | neg a => return -(← a.eval st)
  | add a b => return (← a.eval st) + (← b.eval st)
  | sub a b => return (← a.eval st) - (← b.eval st)
  | mul a b => return (← a.eval st) * (← b.eval st)
  | div a b => do
    let divisor ← b.eval st
    if nearZero divisor then despite .divisionByZero 0
    else return (← a.eval st) / divisor
  | direction p => do
    let v ← p.locate st
    noteIf (v = st.pos) .noDirection
    return Angle.normalize (st.pos.directionTo v)
  | directionBetween p q => do
    let v ← p.locate st
    let w ← q.locate st
    noteIf (v = w) .noDirection
    return Angle.normalize (v.directionTo w)
  | distance p => return ((← p.locate st) - st.pos).strides
  | distanceBetween p q => do
    let v ← p.locate st
    return ((← q.locate st) - v).length
  | nearer a b p => do
    let v ← p.locate st
    let first ← a.eval st
    if v = st.pos then despite .noDirection first
    else
      let second ← b.eval st
      let toward := st.pos.directionTo v
      return if (Angle.signed (second - toward)).abs < (Angle.signed (first - toward)).abs then
        second else first
  | opposite a => return (← a.eval st) + 180
  | stepDrill a b p => do
    let strides := ((← p.locate st) - st.pos).strides
    let beats ← a.eval st
    let block ← b.eval st
    if nearZero block then despite .divisionByZero 0
    else return strides * beats / block

def evalD (st : Station) (default : Float) : Option Expr → Noted Float
  | some e => e.eval st
  | none => pure default

end Expr

def countTolerance : Float := 1e-3

/-- The integer that a number stands for: the nearest, clamped into 32 bits. -/
def toCount (x : Float) : Noted Int32 := do
  let r := Numeric.floor (x + 0.5)
  noteIf (countTolerance < (x - r).abs) .fractionalCount
  return Numeric.toInt32 Numeric.whole r

def toBeats (x : Float) : Noted Nat := do
  let n ← toCount x
  if n < 0 then despite .negativeCount 0 else return n.toInt.toNat

end FieldShow
