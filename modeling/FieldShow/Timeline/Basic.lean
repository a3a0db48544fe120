import FieldShow.Routine.Basic
import FieldShow.Timeline.Clash
import FieldShow.Timeline.Track

/-!
A show worked out: what every marcher does on every sheet that is performed, and where it is on
every beat. Beats are counted through the whole show; one on which a sheet ends belongs to the
next.
-/

namespace FieldShow

structure Lane where
  start : Vec
  routine : Routine
deriving DecidableEq, Repr

structure Scene where
  name : String
  /-- The index of the sheet in the show. -/
  index : Nat
  beats : Nat
  lanes : List Lane
  markers : Markers
deriving DecidableEq, Repr

/-- The beats on which scenes begin one after the other, and the beat on which the last one is over.
32 bits have to hold each of them. -/
def Scene.schedule : Nat → List Scene → Except Fault (List Nat × Nat)
  | start, [] => .ok ([], start)
  | start, s :: rest => do
    if UInt32.size ≤ start + s.beats then throw .tooManyBeats
    let (starts, total) ← schedule (start + s.beats) rest
    return (start :: starts, total)

structure Timeline where
  scenes : List Scene
  starts : List Nat
  total : Nat
  size : Nat
  /-- The least distance between marchers, in units. -/
  least : Int32
  scheduled : Scene.schedule 0 scenes = .ok (starts, total)
deriving DecidableEq, Repr

structure Settings where
  parallel : Bool := false
  threads : Option Nat := none
  least : Int32 := .ofNat unitsPerStep
deriving Repr

namespace Show

/-- One marcher through the whole show; what it remembers it takes from sheet to sheet. -/
def outcomes (s : Show) (point : Nat) : Memory → List (Nat × Sheet) → Except Fault (List Outcome)
  | _, [] => .ok []
  | memory, (i, sheet) :: rest => do
    let home ← sheet.placement point
    let o ← s.rehearse i point home.symbol memory .empty
    return o :: (← s.outcomes point o.memory rest)

end Show

def Scene.of (index : Nat) (sheet : Sheet) (outcomes : List Outcome) : Scene :=
  { name := sheet.name
    index := index
    beats := sheet.beats.toNat
    lanes := List.zipWith (fun p o => ⟨p.position, o.routine⟩) sheet.placements outcomes
    markers := outcomes.foldl (fun m o => m.merge o.markers) .empty }

/-- The scenes of the sheets that are performed; each marcher has its outcomes in a row. -/
def Scene.assemble : List (Nat × Sheet) → List (List Outcome) → List Scene
  | [], _ => []
  | (i, sheet) :: rest, rows =>
    .of i sheet (rows.filterMap List.head?) :: assemble rest (rows.map List.tail)

namespace Timeline

def ofScenes (scenes : List Scene) (size : Nat) (least : Int32) : Except Fault Timeline :=
  match h : Scene.schedule 0 scenes with
  | .ok (starts, total) => .ok ⟨scenes, starts, total, size, least, h⟩
  | .error f => .error f

/-- Work out a show. Whether marchers are worked out one by one or side by side makes no
difference to the result. -/
def build (s : Show) (o : Settings) : Except Fault Timeline := do
  if o.least < 0 then throw .negativeThreshold
  let s ← s.validate
  if o.parallel ∧ o.threads = some 0 then throw .noThreads
  let rows ← (List.range s.size).mapM fun point => s.outcomes point .empty s.performed
  ofScenes (Scene.assemble s.performed rows) s.size o.least

def scene (t : Timeline) (index : Nat) : Except Fault Scene :=
  match t.scenes[index]? with
  | some s => .ok s
  | none => .error (.sceneOutOfRange index t.scenes.length)

def sceneStart? (t : Timeline) (index : Nat) : Option Nat := t.starts[index]?

def sceneOf? (t : Timeline) (sheet : Nat) : Option Nat :=
  t.scenes.findIdx? fun s => s.index = sheet

def markersOf? (t : Timeline) (sheet : Nat) : Option Markers :=
  (t.scenes.find? fun s => s.index = sheet).map Scene.markers

def hasMistakes (t : Timeline) : Bool := t.scenes.any fun s => !s.markers.isEmpty

/-- The scene in which a beat falls, and the beat there. Scenes begin in ascending order, so those
that have begun come before the first one that has not. -/
def locate (t : Timeline) (beat : Nat) : Except Fault (Nat × Nat) :=
  if t.scenes = [] then .error .emptyTimeline
  else if t.total < beat then .error (.beatOutOfRange beat t.total)
  else
    let scene := t.starts.findIdx (fun start => beat < start) - 1
    .ok (scene, beat - t.starts.getD scene 0)

def checkMarcher (t : Timeline) (point : Nat) : Except Fault Unit :=
  if point < t.size then .ok () else .error (.marcherOutOfRange point t.size)

def lane (s : Scene) (point : Nat) : Except Fault Lane :=
  match s.lanes[point]? with
  | some l => .ok l
  | none => .error (.marcherOutOfRange point s.lanes.length)

def position (t : Timeline) (point beat : Nat) : Except Fault Vec := do
  t.checkMarcher point
  let (i, k) ← t.locate beat
  let l ← lane (← t.scene i) point
  return Motion.positionAfter l.routine.motions l.start k

def positions (t : Timeline) (beat : Nat) : Except Fault (List Vec) :=
  (List.range t.size).mapM fun point => t.position point beat

def clashes (t : Timeline) (beat : Nat) : Except Fault Clashes :=
  return Clashes.find (← t.positions beat) t.least

def path (t : Timeline) (point index : Nat) : Except Fault (List (Vec × Motion)) := do
  t.checkMarcher point
  let l ← lane (← t.scene index) point
  return Motion.starts l.routine.motions l.start

end Timeline
end FieldShow
