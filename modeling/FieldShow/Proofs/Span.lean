import FieldShow.Motion.Walk

/-!
How long a motion lasts beside how long its path was laid out for. A fresh motion lasts just as
long, and one that is cut ends before its path does.
-/

namespace FieldShow

def Path.span? : Path → Option Nat
  | stand _ => none
  | line _ span _ => some span
  | arc _ _ _ _ span _ => some span

namespace Motion

/-- It has not begun, and it lasts no longer than its path. -/
structure Laid (m : Motion) : Prop where
  cursor : m.cursor = 0
  le_span : ∀ n ∈ m.path.span?, m.beats ≤ n

/-- It has not begun, and it lasts as long as its path. -/
structure Fresh (m : Motion) : Prop where
  cursor : m.cursor = 0
  span : ∀ n ∈ m.path.span?, n = m.beats

def Cut (m : Motion) : Prop := ∃ n ∈ m.path.span?, m.beats < n

instance (m : Motion) : Decidable m.Cut :=
  match h : m.path.span? with
  | none => .isFalse (by simp [Cut, h])
  | some n => decidable_of_iff (m.beats < n) (by simp [Cut, h])

variable {m : Motion}

theorem Fresh.laid (h : m.Fresh) : m.Laid :=
  ⟨h.cursor, fun n hn => Nat.le_of_eq (h.span n hn).symm⟩

theorem Fresh.not_cut (h : m.Fresh) : ¬m.Cut := by
  rintro ⟨n, hn, hlt⟩
  have := h.span n hn
  omega

theorem Laid.clip (h : m.Laid) (n : Nat) : (m.clip n).Laid where
  cursor := by simp [Motion.clip, h.cursor]
  le_span k hk := Nat.le_trans (Nat.min_le_left ..) (h.le_span k hk)

theorem Laid.rewind (h : m.Laid) : m.rewind = m := by simp [Motion.rewind, ← h.cursor]

@[simp] theorem fresh_stand (n : Nat) (f : Float) : (stand n f).Fresh :=
  ⟨rfl, by simp [stand, Path.span?]⟩

@[simp] theorem fresh_lineFacing (n : Nat) (v : Vec) (f : Float) : (lineFacing n v f).Fresh :=
  ⟨rfl, by simp [lineFacing, Path.span?]⟩

@[simp] theorem fresh_line (n : Nat) (v : Vec) : (line n v).Fresh := fresh_lineFacing ..

@[simp] theorem fresh_arc (n : Nat) (c : Vec) (r a b : Float) (back : Bool) :
    (arc n c r a b back).Fresh := ⟨rfl, by simp [arc, Path.span?]⟩

end Motion
end FieldShow
