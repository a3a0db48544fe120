import FieldShow.Timeline.Basic

/-!
A show played beat by beat. Within a scene the tracks move on one beat at a time; whatever leads
to another scene, and every jump, sets them up anew.
-/

namespace FieldShow

structure Playhead where
  timeline : Timeline
  scene : Nat
  beat : Nat
  tracks : List Track
deriving Repr

structure Pose where
  position : Vec
  facing : Compass
  direction : Float
  clash : Option Closeness
deriving Repr

namespace Playhead

def load (h : Playhead) (scene beat : Nat) : Playhead :=
  match h.timeline.scenes[scene]? with
  | some s =>
    { h with
      scene := scene
      beat := min beat s.beats
      tracks := s.lanes.map fun l => .seek l.routine.motions l.start beat }
  | none => h

def start (t : Timeline) : Playhead :=
  let h : Playhead := ⟨t, 0, 0, []⟩
  match t.locate 0 with
  | .ok (scene, beat) => h.load scene beat
  | .error _ => h

def globalBeat (h : Playhead) : Nat := (h.timeline.sceneStart? h.scene).getD 0 + h.beat

/-- To a place that was looked up, track by track if it is in the same scene. -/
def moveTo (h : Playhead) (move : Track → Track) (scene beat : Nat) : Playhead :=
  if scene = h.scene then { h with beat := beat, tracks := h.tracks.map move }
  else h.load scene beat

-- Each control gives its answer, and the playhead that it leaves behind.

def next (h : Playhead) : Bool × Playhead :=
  if h.timeline.total ≤ h.globalBeat then (false, h)
  else
    match h.timeline.locate (h.globalBeat + 1) with
    | .error _ => (false, h)
    | .ok (scene, beat) => (true, h.moveTo Track.next scene beat)

def prev (h : Playhead) : Bool × Playhead :=
  if h.globalBeat = 0 then (false, h)
  else
    match h.timeline.locate (h.globalBeat - 1) with
    | .error _ => (false, h)
    | .ok (scene, beat) => (true, h.moveTo Track.prev scene beat)

def goto (h : Playhead) (beat : Nat) : Except Fault Unit × Playhead :=
  match h.timeline.locate beat with
  | .error f => (.error f, h)
  | .ok (scene, beat) => (.ok (), h.load scene beat)

def gotoScene (h : Playhead) (scene : Nat) : Except Fault Unit × Playhead :=
  match h.timeline.scene scene with
  | .error f => (.error f, h)
  | .ok _ => (.ok (), h.load scene 0)

/-- To the next scene, or to the end of the last one unless it is there already. -/
def nextScene (h : Playhead) : Bool × Playhead :=
  if h.scene + 1 < h.timeline.scenes.length then (true, h.load (h.scene + 1) 0)
  else
    let last := (h.timeline.scenes[h.scene]?.map Scene.beats).getD 0
    if h.beat = last then (false, h) else (true, h.load h.scene last)

/-- To the start of the scene, or from there to the scene before it. -/
def prevScene (h : Playhead) : Bool × Playhead :=
  if 0 < h.beat then (true, h.load h.scene 0)
  else if h.scene = 0 then (false, h)
  else (true, h.load (h.scene - 1) 0)

def positions (h : Playhead) : List Vec := h.tracks.map Track.pos

def clashes (h : Playhead) : Clashes := Clashes.find h.positions h.timeline.least

def track (h : Playhead) (point : Nat) : Except Fault Track :=
  match h.tracks[point]? with
  | some t => .ok t
  | none => .error (.marcherOutOfRange point h.tracks.length)

def position (h : Playhead) (point : Nat) : Except Fault Vec := return (← h.track point).pos

def pose (h : Playhead) (point : Nat) : Except Fault Pose := do
  let t ← h.track point
  let direction := (t.current?.map Motion.heading).getD 0
  return ⟨t.pos, .ofAngle direction, direction, h.clashes.worst? point⟩

/-- The beats with clashes from here on, at most `n` beats further. -/
def clashesAhead : Nat → Playhead → List (Nat × Clashes)
  | n, h =>
    let here := if h.clashes = [] then [] else [(h.globalBeat, h.clashes)]
    match n with
    | 0 => here
    | n + 1 =>
      match h.next with
      | (true, h) => here ++ clashesAhead n h
      | (false, _) => here

end Playhead

/-- Every beat with clashes, found by playing the show once. -/
def Timeline.allClashes (t : Timeline) : List (Nat × Clashes) :=
  Playhead.clashesAhead t.total (.start t)

end FieldShow
