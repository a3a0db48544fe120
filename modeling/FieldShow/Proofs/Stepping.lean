import Mathlib.Logic.Function.Iterate
import FieldShow.Proofs.Walking

/-!
All the ways through one motion. Gone through beat by beat it comes to where one jump leads, even
where sums saturate. Moved about along a line a marcher is where the cursor says, unless the line
covers the least number of 32 bits: the way back from there is longer than a displacement can be.
-/

namespace FieldShow

open Numeric

namespace Walk

variable {m : Motion} {p : Vec} {w : Walk} {j k : Nat}

theorem enter_of_pos (h : 0 < m.beats) (p : Vec) : (Walk.mk m p).enter = ⟨m.rewind, p⟩ :=
  if_neg (Nat.ne_of_gt h)

theorem iterate_next_seek (hm : m.Laid) (p : Vec) (h : j + k ≤ m.beats) :
    next^[k] ((Walk.mk m p).seek j) = (Walk.mk m p).seek (j + k) := by
  induction k with
  | zero => rfl
  | succ k ih =>
    rw [Function.iterate_succ_apply', ih (by omega)]
    exact next_seek hm (by omega) p

theorem iterate_next (hm : m.Laid) (p : Vec) (hk : 1 ≤ k) (h : k ≤ m.beats) :
    next^[k] (Walk.mk m p) = (Walk.mk m p).seek k := by
  -- the first beat is a jump even from where the marcher is not on its path yet
  obtain ⟨k, rfl⟩ := Nat.exists_eq_add_of_le hk
  have hpos : 0 < m.beats := by omega
  have hfirst : (Walk.mk m p).next = (Walk.mk m p).seek 1 := by
    rw [next, hm.cursor, if_pos hpos]
  rw [Nat.add_comm 1 k, Function.iterate_succ_apply, hfirst, iterate_next_seek hm p (by omega),
    Nat.add_comm 1 k]

/-- A motion that is entered and gone through beat by beat is, after each of them, where one jump
from its start leads, and it is over on the last beat and not before. -/
theorem beat_by_beat (hm : m.rewind.Laid) (hbeats : 0 < m.beats) (p : Vec) :
    (∀ k, 1 ≤ k → k ≤ m.beats →
      next^[k] (Walk.mk m p).enter = (Walk.mk m.rewind p).seek k ∧
        ((next^[k] (Walk.mk m p).enter).Running ↔ k < m.beats)) ∧
      next^[m.beats] (Walk.mk m p).enter = (Walk.mk m.rewind p).toEnd := by
  rw [enter_of_pos hbeats]
  have hjump (k : Nat) (hk : 1 ≤ k) (hle : k ≤ m.beats) :
      next^[k] (Walk.mk m.rewind p) = (Walk.mk m.rewind p).seek k := iterate_next hm p hk hle
  refine ⟨fun k hk hle => ⟨hjump k hk hle, ?_⟩, ?_⟩
  · rw [hjump k hk hle, Running, beats_seek, cursor_seek (m := m.rewind) p hle]
    rfl
  · rw [hjump m.beats hbeats (Nat.le_refl _)]
    exact (if_pos hbeats).symm

theorem beat_by_beat_saturated :
    let m : Motion := { (Motion.lineFacing 7 ⟨1000, -50⟩ 0).clip 5 with cursor := 3 }
    let w : Walk := ⟨m, ⟨2147483000, 20⟩⟩
    next^[4] w.enter = (Walk.mk m.rewind w.pos).seek 4 ∧ (next^[4] w.enter).Running ∧
      ¬(next^[5] w.enter).Running ∧ next^[5] w.enter = (Walk.mk m.rewind w.pos).toEnd := by
  intro m w
  have hlaid : m.rewind.Laid := (Motion.fresh_lineFacing 7 ⟨1000, -50⟩ 0).laid.clip 5
  obtain ⟨hsteps, hend⟩ := beat_by_beat hlaid (by decide) w.pos
  have hfourth := hsteps 4 (by decide) (by decide)
  have hfifth := hsteps 5 (by decide) (by decide)
  exact ⟨hfourth.1, hfourth.2.2 (by decide), fun h => absurd (hfifth.2.1 h) (by decide), hend⟩

inductive Control where
  | seek (beat : Nat) | next | prev | toEnd | toStart
deriving DecidableEq, Repr

def press (w : Walk) : Control → Walk
  | .seek beat => w.seek beat
  | .next => w.next
  | .prev => w.prev
  | .toEnd => w.toEnd
  | .toStart => w.toStart

def pressAll (w : Walk) (cs : List Control) : Walk := cs.foldl press w

theorem seek_min (w : Walk) (k : Nat) : w.seek (min k w.motion.beats) = w.seek k := by
  simp only [seek, Nat.min_assoc, Nat.min_self]

theorem press_cases (h : 0 < w.motion.beats) (c : Control) :
    w.press c = w ∨ ∃ k ≤ w.motion.beats, w.press c = w.seek k := by
  have hjump (k : Nat) : ∃ j ≤ w.motion.beats, w.seek k = w.seek j :=
    ⟨min k w.motion.beats, Nat.min_le_right .., (w.seek_min k).symm⟩
  cases c with
  | seek beat => exact .inr (hjump beat)
  | next =>
    rw [press, next]
    split
    · exact .inr (hjump _)
    · exact .inl rfl
  | prev =>
    rw [press, prev]
    split
    · exact .inl rfl
    · exact .inr (hjump _)
  | toEnd => exact .inr ⟨_, Nat.le_refl _, if_pos h⟩
  | toStart => exact .inr ⟨0, Nat.zero_le _, if_pos h⟩

theorem seek_seek_of_fits (hm : m.Laid) (hj : j ≤ m.beats) (hk : k ≤ m.beats)
    (h : p.AddFits (m.path.offset j)) (hback : (m.path.offset k).SubFits (m.path.offset j)) :
    ((Walk.mk m p).seek j).seek k = (Walk.mk m p).seek k := by
  rw [seek_laid hm hj, seek_laid hm hk, seek_eq _ hk]
  exact congrArg (Walk.mk _) (Motion.placeFrom_back h hback)

end Walk

/-- What it covers can be undone: the negative of the least number of 32 bits is not one of them. -/
def Motion.Retraceable (m : Motion) : Prop :=
  (m.path.offset m.beats).x ≠ Int32.minValue ∧ (m.path.offset m.beats).y ≠ Int32.minValue

instance (m : Motion) : Decidable m.Retraceable := inferInstanceAs (Decidable (_ ∧ _))

theorem Motion.Retraceable.subFits {m : Motion} (h : m.Retraceable) (hm : m.Laid) {j k : Nat}
    (hj : j ≤ m.beats) (hk : k ≤ m.beats) : (m.path.offset k).SubFits (m.path.offset j) :=
  (hm.offset_part hk (Nat.le_refl _)).subFits (hm.offset_part hj (Nat.le_refl _)) h.1 h.2

theorem Path.toInt_offset (shift : Vec) {span k : Nat} (hspan : 0 < span) (hk : k ≤ span)
    (facing : Float) : ((line shift span facing).offset k).x.toInt = shift.x.toInt * k / span ∧
      ((line shift span facing).offset k).y.toInt = shift.y.toInt * k / span := by
  simp only [offset, if_neg (Nat.ne_of_gt hspan)]
  exact ⟨toInt_ofInt_share _ hspan hk, toInt_ofInt_share _ hspan hk⟩

theorem Numeric.toInt_retreat {a b : Int32} (h : Fits (a.toInt + b.toInt))
    (hb : b = Int32.minValue) :
    (saturate ((saturate (a.toInt + b.toInt)).toInt + (saturate (0 - b.toInt)).toInt)).toInt =
      a.toInt - 1 := by
  have hmin : b.toInt = -2147483648 := by rw [hb]; rfl
  have hfits := fits_toInt a
  rw [toInt_saturate_of_fits h, hmin]
  simp only [toInt_saturate]
  unfold Fits at h hfits
  omega

namespace Vec

variable {p v : Vec}

theorem x_retreat (h : p.AddFits v) (hv : v.x = Int32.minValue) :
    (p + v + (0 - v)).x.toInt = p.x.toInt - 1 := by
  simpa only [add_def, sub_def, toInt_zero_x] using toInt_retreat h.1 hv

theorem y_retreat (h : p.AddFits v) (hv : v.y = Int32.minValue) :
    (p + v + (0 - v)).y.toInt = p.y.toInt - 1 := by
  simpa only [add_def, sub_def, toInt_zero_y] using toInt_retreat h.2 hv

end Vec

namespace Walk

variable {m : Motion} {p : Vec} {w : Walk} {j k : Nat}

theorem pressAll_eq (hm : m.Laid) (hbeats : 0 < m.beats) (hent : m.Entered p)
    (hfits : ∀ k ≤ m.beats, p.AddFits (m.path.offset k)) (hback : m.Retraceable)
    (cs : List Control) : ∃ k ≤ m.beats, (Walk.mk m p).pressAll cs = (Walk.mk m p).seek k := by
  suffices hrun : ∀ w, (∃ j ≤ m.beats, w = (Walk.mk m p).seek j) →
      ∃ k ≤ m.beats, w.pressAll cs = (Walk.mk m p).seek k from
    hrun _ ⟨0, Nat.zero_le _, (seek_zero hm hent).symm⟩
  induction cs with
  | nil => exact fun w hw => hw
  | cons c cs ih =>
    rintro w ⟨j, hj, rfl⟩
    refine ih _ ?_
    obtain hkept | ⟨k, hk, hjump⟩ := press_cases (w := (Walk.mk m p).seek j) hbeats c
    · exact ⟨j, hj, hkept⟩
    · exact ⟨k, hk, hjump.trans (seek_seek_of_fits hm hj hk (hfits j hj) (hback.subFits hm hj hk))⟩

theorem toStart_toEnd_eq (h : 0 < m.beats) (p : Vec) :
    (Walk.mk m p).toEnd.toStart = ((Walk.mk m p).seek m.beats).seek 0 := by
  have hend : (Walk.mk m p).toEnd = (Walk.mk m p).seek m.beats := if_pos h
  rw [hend]
  exact if_pos h

section Line

variable {shift : Vec} {span : Nat} {facing : Float}

theorem toInt_offset_line (hpath : m.path = .line shift span facing) (hm : m.Laid)
    (hbeats : 0 < m.beats) (hk : k ≤ m.beats) :
    (m.path.offset k).x.toInt = shift.x.toInt * k / span ∧
      (m.path.offset k).y.toInt = shift.y.toInt * k / span := by
  have hspan : m.beats ≤ span := hm.le_span span (by rw [hpath]; rfl)
  rw [hpath]
  exact Path.toInt_offset shift (Nat.lt_of_lt_of_le hbeats hspan) (Nat.le_trans hk hspan) facing

theorem toInt_seek_line (hpath : m.path = .line shift span facing) (hm : m.Laid)
    (hbeats : 0 < m.beats) (hk : k ≤ m.beats) (h : p.AddFits (m.path.offset k)) :
    let w := (Walk.mk m p).seek k
    w.pos.x.toInt = p.x.toInt + shift.x.toInt * w.motion.cursor / span ∧
      w.pos.y.toInt = p.y.toInt + shift.y.toInt * w.motion.cursor / span := by
  have hsum := Vec.toInt_add h
  have hoffset := toInt_offset_line hpath hm hbeats hk
  rw [hoffset.1, hoffset.2] at hsum
  rw [seek_laid hm hk]
  simpa only [Motion.placeFrom, hpath, Path.offset_zero, Vec.sub_zero] using hsum

theorem toStart_toEnd_ne (hpath : m.path = .line shift span facing) (hm : m.Laid)
    (hbeats : 0 < m.beats) (h : p.AddFits (m.path.offset m.beats)) (hback : ¬m.Retraceable) :
    (Walk.mk m p).toEnd.toStart.pos ≠ p := by
  have hpos : (Walk.mk m p).toEnd.toStart.pos =
      p + m.path.offset m.beats + (0 - m.path.offset m.beats) := by
    rw [toStart_toEnd_eq hbeats, seek_laid hm (Nat.le_refl _), seek_eq _ (Nat.zero_le _)]
    simp only [Motion.placeFrom, hpath, Path.offset_zero, Vec.sub_zero]
  intro heq
  rw [hpos] at heq
  obtain hx | hy := not_and_or.1 hback
  · have := Vec.x_retreat h (not_not.1 hx)
    rw [heq] at this
    omega
  · have := Vec.y_retreat h (not_not.1 hy)
    rw [heq] at this
    omega

/-- Along a line that stays on the field a marcher is always where the cursor says, however the
controls were used, just if the line can be undone; to go there and back is enough to tell. -/
theorem place_iff_retraceable (hpath : m.path = .line shift span facing) (hm : m.Laid)
    (hbeats : 0 < m.beats)
    (hfits : ∀ k ≤ m.beats, Fits (p.x.toInt + shift.x.toInt * k / span) ∧
      Fits (p.y.toInt + shift.y.toInt * k / span)) :
    ((∀ cs, let w := (Walk.mk m p).pressAll cs
        w.pos.x.toInt = p.x.toInt + shift.x.toInt * w.motion.cursor / span ∧
          w.pos.y.toInt = p.y.toInt + shift.y.toInt * w.motion.cursor / span) ↔ m.Retraceable) ∧
      ((Walk.mk m p).toEnd.toStart = ⟨m, p⟩ ↔ m.Retraceable) := by
  have hadd (k : Nat) (hk : k ≤ m.beats) : p.AddFits (m.path.offset k) := by
    have hoffset := toInt_offset_line hpath hm hbeats hk
    rw [Vec.AddFits, hoffset.1, hoffset.2]
    exact hfits k hk
  have hent : m.Entered p := by simp [Motion.Entered, hpath]
  have hreturn (h : (Walk.mk m p).toEnd.toStart.pos = p) : m.Retraceable := by
    by_contra hback
    exact toStart_toEnd_ne hpath hm hbeats (hadd _ (Nat.le_refl _)) hback h
  refine ⟨⟨fun h => hreturn ?_, fun hback cs => ?_⟩, fun h => hreturn (by rw [h]), fun hback => ?_⟩
  · have hcursor : (Walk.mk m p).toEnd.toStart.motion.cursor = 0 := by
      rw [toStart_toEnd_eq hbeats]
      exact Nat.zero_min _
    obtain ⟨hx, hy⟩ := h [.toEnd, .toStart]
    simp only [pressAll, List.foldl_cons, List.foldl_nil, press, hcursor, share_zero,
      Int.add_zero] at hx hy
    exact Vec.eq_iff_toInt.2 ⟨hx, hy⟩
  · obtain ⟨k, hk, hjump⟩ := pressAll_eq hm hbeats hent hadd hback cs
    rw [hjump]
    exact toInt_seek_line hpath hm hbeats hk (hadd k hk)
  · rw [toStart_toEnd_eq hbeats, seek_seek_of_fits hm (Nat.le_refl _) (Nat.zero_le _)
      (hadd _ (Nat.le_refl _)) (hback.subFits hm (Nat.le_refl _) (Nat.zero_le _))]
    exact seek_zero hm hent

theorem place_iff_retraceable_cut :
    let m := (Motion.lineFacing 7 ⟨-2147483648, 100⟩ 180).clip 5
    let w := (Walk.mk m ⟨30, -7⟩).pressAll [.seek 4, .next, .prev, .toEnd, .seek 2, .next]
    w.motion.cursor = 3 ∧ w.pos.x.toInt = 30 + -2147483648 * 3 / 7 ∧
      w.pos.y.toInt = -7 + 100 * 3 / 7 ∧
      (Walk.mk m ⟨30, -7⟩).toEnd.toStart = ⟨m, ⟨30, -7⟩⟩ := by
  intro m w
  obtain ⟨hplace, hreturn⟩ := place_iff_retraceable (m := m) (p := ⟨30, -7⟩) rfl
    ((Motion.fresh_lineFacing 7 ⟨-2147483648, 100⟩ 180).laid.clip 5) (by decide) (by decide)
  have hback : m.Retraceable := by decide
  have hcursor : w.motion.cursor = 3 := by decide
  obtain ⟨hx, hy⟩ := hplace.2 hback [.seek 4, .next, .prev, .toEnd, .seek 2, .next]
  rw [hcursor] at hx hy
  exact ⟨hcursor, hx, hy, hreturn.2 hback⟩

/-- All four beats of such a line cannot: the way back ends one unit too far west. -/
theorem toStart_toEnd_widest :
    let shift : Vec := ⟨-2147483648, 0⟩
    let m := Motion.lineFacing 4 shift 180
    let p : Vec := ⟨0, 0⟩
    m.Laid ∧ 0 < m.beats ∧
      (∀ k ≤ m.beats, Fits (p.x.toInt + shift.x.toInt * k / 4) ∧
        Fits (p.y.toInt + shift.y.toInt * k / 4)) ∧
      (Walk.mk m p).toEnd.toStart = ⟨m, ⟨-1, 0⟩⟩ ∧ (Walk.mk m p).toEnd.toStart.pos ≠ p := by
  intro shift m p
  exact ⟨(Motion.fresh_lineFacing 4 shift 180).laid, by decide, by decide, by decide, by decide⟩

end Line

end Walk
end FieldShow
