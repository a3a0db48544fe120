import FieldShow.Motion.Walk

/-!
Motions one after the other. A place on them is found at once from the beats that have passed,
or beat by beat from the motion under way.
-/

namespace FieldShow

namespace Motion

def positionAfter : List Motion → Vec → Nat → Vec
  | [], p, _ => p
  | m :: rest, p, k =>
    if k < m.beats then ((Walk.mk m p).seek k).pos
    else positionAfter rest (m.destination p) (k - m.beats)

def starts : List Motion → Vec → List (Vec × Motion)
  | [], _ => []
  | m :: rest, p => (p, m) :: starts rest (m.destination p)

def ends : List Motion → Vec → List Vec
  | [], _ => []
  | m :: rest, p => m.destination p :: ends rest (m.destination p)

end Motion

/-- A sequence of motions under way: those that are over, the last of them first, then the one
under way and those to come. -/
structure Track where
  pos : Vec
  played : List Motion
  ahead : List Motion
deriving DecidableEq, Repr

namespace Track

/-- From the start of a sequence to `k` beats later, over motions already played. Where a motion
ends the next one takes over, and motions that take no time are over at once. -/
def seekFrom (played : List Motion) : List Motion → Vec → Nat → Track
  | [], p, _ => ⟨p, played, []⟩
  | m :: rest, p, k =>
    if k < m.beats then
      let w := (Walk.mk m p).seek k
      ⟨w.pos, played, w.motion :: rest⟩
    else
      let w := (Walk.mk m p).toEnd
      match rest with
      | [] => ⟨w.pos, played, [w.motion]⟩
      | _ => seekFrom (w.motion :: played) rest w.pos (k - m.beats)

def seek (motions : List Motion) (start : Vec) (k : Nat) : Track := seekFrom [] motions start k

def current? (t : Track) : Option Motion := t.ahead.head?

def advance (played : List Motion) (last : Motion) : List Motion → Vec → Track
  | [], p => ⟨p, played, [last]⟩
  | m :: rest, p =>
    let w := (Walk.mk m p).enter
    if w.motion.beats = 0 then advance (last :: played) w.motion rest w.pos
    else ⟨w.pos, last :: played, w.motion :: rest⟩

def next (t : Track) : Track :=
  match t.ahead with
  | [] => t
  | m :: rest =>
    let w := (Walk.mk m t.pos).next
    if w.Running then { t with pos := w.pos, ahead := w.motion :: rest }
    else advance t.played w.motion rest w.pos

/-- One beat back from the motion `m`, or from the latest one before it that has begun. Motions
that take no time are undone on the way. -/
def retreat : List Motion → Motion → List Motion → Vec → Track
  | played, m, rest, p =>
    if m.beats ≠ 0 ∧ m.cursor ≠ 0 then
      let w := (Walk.mk m p).prev
      ⟨w.pos, played, w.motion :: rest⟩
    else
      let w := if m.beats = 0 then (Walk.mk m p).toStart else ⟨m, p⟩
      match played with
      | [] => ⟨w.pos, [], w.motion :: rest⟩
      | before :: played => retreat played before (w.motion :: rest) w.pos

def prev (t : Track) : Track :=
  match t.ahead with
  | [] => t
  | m :: rest => retreat t.played m rest t.pos

end Track
end FieldShow
