import FieldShow.Motion.Basic

/-!
A marcher in the middle of a motion. The place follows the cursor: on a line by the difference
of what is covered at two beats, on an arc by the angle alone.
-/

namespace FieldShow

structure Walk where
  motion : Motion
  pos : Vec
deriving DecidableEq, Repr

namespace Walk

def seek (k : Nat) (w : Walk) : Walk :=
  let k := min k w.motion.beats
  let path := w.motion.path
  let pos := match path with
    | .stand _ => w.pos
    | .line .. => w.pos + (path.offset k - path.offset w.motion.cursor)
    | .arc .. => path.place (path.angleAt k)
  ⟨{ w.motion with cursor := k }, pos⟩

/-- To the end. A motion of no beats happens at once. -/
def toEnd (w : Walk) : Walk :=
  if 0 < w.motion.beats then w.seek w.motion.beats
  else
    let path := w.motion.path
    let pos := match path with
      | .stand _ => w.pos
      | .line .. => w.pos + path.jump
      | .arc _ _ start finish span _ => path.place (if span = 0 then finish else start)
    ⟨w.motion.rewind, pos⟩

def toStart (w : Walk) : Walk :=
  if 0 < w.motion.beats then w.seek 0
  else
    let path := w.motion.path
    let pos := match path with
      | .stand _ => w.pos
      | .line .. => w.pos - path.jump
      | .arc _ _ start .. => path.place start
    { w with pos := pos }

def enter (w : Walk) : Walk :=
  let w := { w with motion.cursor := 0 }
  if w.motion.beats = 0 then w.toEnd else w

def reenter (w : Walk) : Walk :=
  let w := { w with motion.cursor := w.motion.beats }
  if w.motion.beats = 0 then w.toStart else w

def next (w : Walk) : Walk :=
  if w.motion.cursor < w.motion.beats then w.seek (w.motion.cursor + 1) else w

def prev (w : Walk) : Walk :=
  if w.motion.cursor = 0 then w else w.seek (w.motion.cursor - 1)

def Running (w : Walk) : Prop := w.motion.cursor < w.motion.beats

instance (w : Walk) : Decidable w.Running := inferInstanceAs (Decidable (_ < _))

end Walk

def Motion.destination (m : Motion) (p : Vec) : Vec := (Walk.mk m.rewind p).toEnd.pos

end FieldShow
