import FieldShow.Routine.Plan
import FieldShow.Show.Validity

/-!
Routines: the motions of one marcher on one sheet. They last as long as the sheet does, and
before another sheet they end where the marcher stands there.
-/

namespace FieldShow

structure Routine where
  motions : List Motion
  /-- What the motions last together. -/
  beats : Nat
  /-- The program took the beats of the sheet, no more and no fewer. -/
  exact : Bool
deriving DecidableEq, Repr

/-- What a marcher brings out of a sheet. -/
structure Outcome where
  routine : Routine
  memory : Memory
  markers : Markers
deriving DecidableEq, Repr

/-- What a marcher without a continuity does: it goes to the next sheet in all the beats that are
left, or stands facing east. -/
def Cue.defaultAction (c : Cue) (remaining : Nat) : Action :=
  match c.next with
  | some _ => .evenly (.number (.ofNat remaining)) .next
  | none => .standOut (.constant .east)

namespace Progress

variable (c : Cue)

def runDefault (s : Progress) : Progress := s.perform c (c.defaultAction s.remaining)

/-- Make up for a program that did not lead to the next sheet. -/
def correct (s : Progress) : Progress :=
  match c.next with
  | some target =>
    if s.pos = target then s
    else (s.note c .wrongPlace).append c (.line s.remaining (target - s.pos))
  | none => s

def fill (s : Progress) : Progress :=
  if 0 < s.remaining then (s.note c .timeLeft).append c (.stand s.remaining 0) else s

def finish (s : Progress) : Outcome :=
  let corrected := s.correct c
  let filled := corrected.fill c
  { routine :=
      { motions := filled.motions.toList
        beats := sumOf Motion.beats filled.motions.toList
        exact := !filled.overflowed && decide (corrected.remaining = 0) }
    memory := filled.memory
    markers := filled.markers }

end Progress

def Cue.rehearse (c : Cue) (program : Option Program) (beats : Nat) (memory : Memory)
    (markers : Markers) : Outcome :=
  let s := Progress.start c.home.position beats memory markers
  let s := match program with
    | some (st :: rest) => s.run c (st :: rest)
    | _ => s.runDefault c
  s.finish c

namespace Show

def cue (s : Show) (index point : Nat) (symbol : Symbol) : Except Fault (Sheet × Cue) := do
  let sheet ← s.sheet index
  let home ← sheet.placement point
  let next := (s.nextPerformed? index).bind fun t => (t.placements[point]?).map (·.position)
  return (sheet, ⟨point, symbol, home, next, none⟩)

def rehearse (s : Show) (index point : Nat) (symbol : Symbol) (memory : Memory)
    (markers : Markers) : Except Fault Outcome := do
  let (sheet, c) ← s.cue index point symbol
  return c.rehearse (sheet.book.get? symbol) sheet.beats.toNat memory markers

/-- The routine of one marcher on one sheet of a valid show, nothing remembered from before. -/
def outcome (s : Show) (index point : Nat) (symbol : Symbol) : Except Fault Outcome := do
  let s ← s.validate
  s.rehearse index point symbol .empty .empty

end Show
end FieldShow
