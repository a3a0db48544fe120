import FieldShow.Motion.Walk
import FieldShow.Mistake.Markers
import FieldShow.Numeric.Sum
import FieldShow.Routine.Memory
import FieldShow.Routine.Evaluation

/-!
The course of one marcher through one sheet: where the motions so far have brought it and how
many beats they have left. A motion that needs more is cut short, and one that finds none left
is dropped and ends the program.
-/

namespace FieldShow

structure Cue where
  point : Nat
  symbol : Symbol
  home : Placement
  next : Option Vec
  loc : Option Loc
deriving Repr

structure Progress where
  pos : Vec
  remaining : Nat
  /-- No further statement is carried out. -/
  halted : Bool
  /-- Some motion did not fit. -/
  overflowed : Bool
  memory : Memory
  markers : Markers
  motions : Array Motion
deriving Repr

namespace Progress

variable (c : Cue)

def start (pos : Vec) (beats : Nat) (memory : Memory) (markers : Markers) : Progress :=
  ⟨pos, beats, false, false, memory, markers, #[]⟩

def station (s : Progress) : Station :=
  ⟨s.pos, c.home, c.next, s.remaining, s.memory.get? c.point⟩

def note (k : Mistake) (s : Progress) : Progress :=
  { s with markers := s.markers.register k c.loc c.point c.symbol }

def noteAll (ks : List Mistake) (s : Progress) : Progress := ks.foldl (fun s k => s.note c k) s

def remember (slot : Slot) (x : Float) (s : Progress) : Progress :=
  { s with memory := s.memory.set c.point slot x }

/-- Go through a motion that fits, and remember its directions at the end. -/
def take (m : Motion) (s : Progress) : Progress :=
  let w := (Walk.mk m s.pos).toEnd
  let s := (s.remember c .dof w.motion.course).remember c .doh w.motion.heading
  { s with
    pos := w.pos
    remaining := s.remaining - m.beats
    motions := s.motions.push w.motion.rewind }

def runOut (s : Progress) : Progress :=
  { s.note c .outOfTime with overflowed := true, halted := true }

def append (m : Motion) (s : Progress) : Progress :=
  if m.beats ≤ s.remaining then s.take c m
  else if s.remaining = 0 then s.runOut c
  else ({ s.note c .outOfTime with overflowed := true }).take c (m.clip s.remaining)

/-- Go through motions one after the other, up to the first that finds no beat left. -/
def appendAll (c : Cue) : List (Noted Motion) → Progress → Progress
  | [], s => s
  | leg :: legs, s =>
    let after := (s.noteAll c leg.mistakes).append c leg.value
    if s.remaining = 0 ∧ 0 < leg.value.beats then after else appendAll c legs after

theorem remaining_noteAll (ks : List Mistake) (s : Progress) :
    (s.noteAll c ks).remaining = s.remaining := by
  unfold noteAll
  induction ks generalizing s with
  | nil => rfl
  | cons k ks ih => exact ih (s.note c k)

theorem remaining_append (m : Motion) (s : Progress) :
    (s.append c m).remaining = s.remaining - m.beats := by
  unfold append
  split
  · rfl
  · split
    · simp_all [runOut, note]
    · simp only [take, remember, note, Motion.clip]
      omega

end Progress
end FieldShow
