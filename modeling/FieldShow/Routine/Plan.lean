import FieldShow.Routine.Circuit
import FieldShow.Routine.Meeting

/-!
What a statement makes a marcher do. A plan is drawn up from what the marcher sees when the
statement begins; carrying it out spends the beats.
-/

namespace FieldShow

inductive Plan where
  | remember (slot : Slot) (x : Float)
  | go (legs : List (Noted Motion))
  | circuit (c : Circuit) (leg : Fin 4) (strides : Float)
deriving Repr

namespace Plan

def nothing : Plan := go []

def single (m : Motion) : Plan := go [pure m]

/-- A straight leg along an axis or a diagonal, a beat for each whole step. -/
def wholeSteps (v : Vec) : List (Noted Motion) :=
  let along := if v.x = 0 then v.y else v.x
  if v = 0 then [] else [pure (.line (along.toInt.natAbs / unitsPerStep) v)]

/-- A line in a number of beats; below zero the marcher faces where it came from. -/
def directed (beats : Int32) (v : Vec) : Motion :=
  if beats < 0 then
    .lineFacing beats.toInt.natAbs v (Angle.normalize (v.direction + 180))
  else .line beats.toInt.natAbs v

def around (st : Station) (entry through : Vec) (steps first second strides : Float) :
    Noted Plan :=
  match Circuit.lay? entry through steps first second with
  | none => .despite .badCountermarch nothing
  | some c =>
    match c.legAt? st.pos with
    | none => .despite .badCountermarch nothing
    | some leg => pure (circuit c leg strides)

def aroundBy (st : Station) (entry through : Vec) (headings : Option (Constant × Constant))
    (strides : Float) : Noted Plan :=
  match headings with
  | some (first, second) => around st entry through 1 first.value second.value strides
  | none => .despite .badCountermarch nothing

end Plan

open Plan in
def Action.plan (st : Station) : Action → Noted Plan
  | assign s value => return .remember s (← value.eval st)
  | blam => return single (.line st.remaining ((← Target.next.locate st) - st.pos))
  | countermarch p q steps first second beats => do
    let first ← first.eval st
    let second ← second.eval st
    let entry ← p.locate st
    let through ← q.locate st
    let steps ← steps.eval st
    around st entry through steps first second (← beats.eval st)
  | diagonalCountermarch p q beats => do
    let entry ← p.locate st
    let through ← q.locate st
    aroundBy st entry through (diagonalHeadings? entry through) (← beats.eval st)
  | straightCountermarch p q beats => do
    let entry ← p.locate st
    let through ← q.locate st
    aroundBy st entry through (straightHeadings? entry through) (← beats.eval st)
  | diagonalFirst p => do
    let legs := ((← p.locate st) - st.pos).legs
    return go (wholeSteps legs.diagonal ++ wholeSteps legs.straight)
  | straightFirst p => do
    let legs := ((← p.locate st) - st.pos).legs
    return go (wholeSteps legs.straight ++ wholeSteps legs.diagonal)
  | eastWestFirst p => do
    let v := (← p.locate st) - st.pos
    return go (wholeSteps ⟨v.x, 0⟩ ++ wholeSteps ⟨0, v.y⟩)
  | northSouthFirst p => do
    let v := (← p.locate st) - st.pos
    return go (wholeSteps ⟨0, v.y⟩ ++ wholeSteps ⟨v.x, 0⟩)
  | evenly beats p => do
    let v := (← p.locate st) - st.pos
    return single (directed (← toCount (← beats.eval st)) v)
  | fountain first second size₁ size₂ p => do
    let first ← first.eval st
    let one := Pace.polar first (← Expr.evalD st 1 size₁)
    let second ← second.eval st
    let two := Pace.polar second (← Expr.evalD st 1 size₂)
    let v := (← p.locate st) - st.pos
    return go (← (Meeting.of one two (Vec.steps v.x) (Vec.steps v.y)).legs one two v)
  | forward steps direction => do
    let steps ← steps.eval st
    let beats ← toCount steps
    if beats = 0 then return nothing
    else
      let v := Vec.march (← direction.eval st) steps
      return if v = 0 then nothing else single (directed beats v)
  | forwardTo p => do
    let v := (← p.locate st) - st.pos
    return if v = 0 then nothing else single (.line v.strides.toUInt32.toNat v)
  | toGrid size => do
    let v := st.pos.snap (Vec.units (← size.eval st)) - st.pos
    return if v = 0 then nothing else single (.line 0 v)
  | jump p => return single (.line 0 ((← p.locate st) - st.pos))
  | march size steps direction facing => do
    let steps ← steps.eval st
    let beats ← toCount steps
    if beats = 0 then return nothing
    else
      let direction ← direction.eval st
      let v := Vec.polar direction ((← size.eval st) * steps)
      if v = 0 then return nothing
      else
        match facing with
        | some f => return single (.lineFacing beats.toInt.natAbs v (← f.eval st))
        | none => return single (directed beats v)
  | stand beats direction => do
    let beats ← toCount (← beats.eval st)
    if beats = 0 then return nothing
    else return single (.stand beats.toInt.natAbs (← direction.eval st))
  | standOut direction => return single (.stand st.remaining (← direction.eval st))
  | wheel angle steps p backwards => do
    let center ← p.locate st
    let start ← if center = st.pos then Slot.doh.read st
      else pure (Angle.normalize (center.directionTo st.pos))
    let beats ← toCount (← steps.eval st)
    let angle ← angle.eval st
    return single (.arc beats.toInt.natAbs center (st.pos - center).unitLength start
      (start + angle) (backwards || beats < 0))

namespace Progress

def carryOut (c : Cue) (s : Progress) : Plan → Progress
  | .remember slot x => s.remember c slot x
  | .go legs => s.appendAll c legs
  | .circuit circuit leg strides => circuit.walk c leg strides 0 s

def perform (c : Cue) (a : Action) (s : Progress) : Progress :=
  let plan := a.plan (s.station c)
  (s.noteAll c plan.mistakes).carryOut c plan.value

def run (c : Cue) (p : Program) (s : Progress) : Progress :=
  p.foldl (fun s st => if s.halted then s else s.perform { c with loc := st.loc } st.action) s

end Progress
end FieldShow
