import FieldShow.Proofs.Offsets

/-!
Walking on and back in one motion. Going on a beat comes to where a jump from the start leads, even
if sums saturate on the way, and so does going back where none of them does.
-/

namespace FieldShow

namespace Motion

def Entered (m : Motion) (p : Vec) : Prop :=
  match m.path with
  | .arc .. => m.path.place (m.path.angleAt 0) = p
  | _ => True

instance (m : Motion) (p : Vec) : Decidable (m.Entered p) :=
  match h : m.path with
  | .stand _ | .line .. => .isTrue (by simp [Entered, h])
  | .arc .. => decidable_of_iff (m.path.place (m.path.angleAt 0) = p) (by simp [Entered, h])

/-- The place at beat `k` of a marcher who is at `p` at beat `j`. -/
def placeFrom (m : Motion) (j : Nat) (p : Vec) (k : Nat) : Vec :=
  match m.path with
  | .arc .. => m.path.place (m.path.angleAt k)
  | _ => p + (m.path.offset k - m.path.offset j)

variable {m : Motion} {p : Vec} {j k : Nat}

theorem placeFrom_on (hm : m.Laid) (hj : j ≤ k) (hk : k ≤ m.beats) (p : Vec) :
    m.placeFrom j (m.placeFrom 0 p j) k = m.placeFrom 0 p k := by
  have hpart := hm.offset_part hj hk
  obtain ⟨beats, cursor, path⟩ := m
  cases path with
  | arc => rfl
  | stand | line =>
    simp only [placeFrom, Path.offset_zero, Vec.sub_zero]
    exact hpart.add_rest p

theorem placeFrom_back (h : p.AddFits (m.path.offset k))
    (hback : (m.path.offset j).SubFits (m.path.offset k)) :
    m.placeFrom k (m.placeFrom 0 p k) j = m.placeFrom 0 p j := by
  obtain ⟨beats, cursor, path⟩ := m
  cases path with
  | arc => rfl
  | stand | line =>
    simp only [placeFrom, Path.offset_zero, Vec.sub_zero]
    exact Vec.add_add_sub h hback

theorem placeFrom_zero (h : m.Entered p) : m.placeFrom 0 p 0 = p := by
  obtain ⟨beats, cursor, path⟩ := m
  cases path with
  | arc => exact h
  | stand | line => simp only [placeFrom, Path.offset_zero, Vec.sub_zero, Vec.add_zero]

end Motion

namespace Walk

variable {m : Motion} {p : Vec} {j k : Nat}

theorem seek_eq (w : Walk) (hk : k ≤ w.motion.beats) :
    w.seek k = ⟨{ w.motion with cursor := k }, w.motion.placeFrom w.motion.cursor w.pos k⟩ := by
  obtain ⟨⟨beats, cursor, path⟩, pos⟩ := w
  have hk : min k beats = k := Nat.min_eq_left hk
  cases path with
  | stand => simp [seek, Motion.placeFrom, hk, Path.offset, Vec.sub_self, Vec.add_zero]
  | line | arc => simp [seek, Motion.placeFrom, hk]

@[simp] theorem beats_seek (w : Walk) : (w.seek k).motion.beats = w.motion.beats := rfl

theorem cursor_seek (p : Vec) (hk : k ≤ m.beats) : ((Walk.mk m p).seek k).motion.cursor = k :=
  Nat.min_eq_left hk

theorem seek_laid (hm : m.Laid) (hk : k ≤ m.beats) (p : Vec) :
    (Walk.mk m p).seek k = ⟨{ m with cursor := k }, m.placeFrom 0 p k⟩ := by
  rw [seek_eq _ hk, hm.cursor]

theorem seek_seek (hm : m.Laid) (hj : j ≤ k) (hk : k ≤ m.beats) (p : Vec) :
    ((Walk.mk m p).seek j).seek k = (Walk.mk m p).seek k := by
  rw [seek_laid hm (Nat.le_trans hj hk), seek_laid hm hk, seek_eq _ hk]
  exact congrArg (Walk.mk _) (Motion.placeFrom_on hm hj hk p)

theorem next_seek (hm : m.Laid) (hk : k < m.beats) (p : Vec) :
    ((Walk.mk m p).seek k).next = (Walk.mk m p).seek (k + 1) := by
  rw [next, beats_seek, cursor_seek p (Nat.le_of_lt hk), if_pos hk]
  exact seek_seek hm (Nat.le_succ k) hk p

theorem seek_zero (hm : m.Laid) (h : m.Entered p) : (Walk.mk m p).seek 0 = ⟨m, p⟩ := by
  rw [seek_laid hm (Nat.zero_le _), Motion.placeFrom_zero h]
  exact congrArg (Walk.mk · p) hm.rewind

theorem enter_eq (hm : m.Laid) (p : Vec) :
    (Walk.mk m p).enter = if m.beats = 0 then (Walk.mk m p).toEnd else ⟨m, p⟩ := by
  have : (⟨{ m with cursor := 0 }, p⟩ : Walk) = ⟨m, p⟩ := congrArg (Walk.mk · p) hm.rewind
  rw [enter, this]

/-- Neither the difference nor the sum in a jump to beat `k` saturates. -/
def SeekFits (k : Nat) (w : Walk) : Prop :=
  let covered := w.motion.path.offset (min k w.motion.beats)
  let before := w.motion.path.offset w.motion.cursor
  covered.SubFits before ∧ w.pos.AddFits (covered - before)

def ToEndFits (w : Walk) : Prop :=
  if 0 < w.motion.beats then w.SeekFits w.motion.beats else w.pos.AddFits w.motion.path.jump

def ToStartFits (w : Walk) : Prop :=
  if 0 < w.motion.beats then w.SeekFits 0 else w.pos.SubFits w.motion.path.jump

def EnterFits (w : Walk) : Prop := w.motion.beats = 0 → ToEndFits { w with motion.cursor := 0 }

def NextFits (w : Walk) : Prop :=
  w.motion.cursor < w.motion.beats → w.SeekFits (w.motion.cursor + 1)

def PrevFits (w : Walk) : Prop := w.motion.cursor ≠ 0 → w.SeekFits (w.motion.cursor - 1)

instance (w : Walk) : Decidable (w.SeekFits k) := inferInstanceAs (Decidable (_ ∧ _))

instance (w : Walk) : Decidable w.ToEndFits := inferInstanceAs (Decidable (ite ..))

instance (w : Walk) : Decidable w.ToStartFits := inferInstanceAs (Decidable (ite ..))

instance (w : Walk) : Decidable w.EnterFits := inferInstanceAs (Decidable (_ → _))

instance (w : Walk) : Decidable w.NextFits := inferInstanceAs (Decidable (_ → _))

instance (w : Walk) : Decidable w.PrevFits := inferInstanceAs (Decidable (_ → _))

theorem seekFits_iff (hm : m.Laid) (hk : k ≤ m.beats) :
    (Walk.mk m p).SeekFits k ↔ p.AddFits (m.path.offset k) := by
  simp only [SeekFits, hm.cursor, Path.offset_zero, Vec.sub_zero, Nat.min_eq_left hk,
    Vec.subFits_zero, true_and]

theorem SeekFits.mono (hm : m.Laid) (h : (Walk.mk m p).SeekFits k) (hj : j ≤ k)
    (hk : k ≤ m.beats) : (Walk.mk m p).SeekFits j := by
  rw [seekFits_iff hm hk] at h
  rw [seekFits_iff hm (Nat.le_trans hj hk)]
  exact (hm.offset_part hj hk).addFits h

theorem SeekFits.on (hm : m.Laid) (h : (Walk.mk m p).SeekFits k) (hk : k < m.beats)
    (hnext : ((Walk.mk m p).seek k).NextFits) : (Walk.mk m p).SeekFits (k + 1) := by
  have hle := Nat.le_of_lt hk
  rw [NextFits, cursor_seek p hle, beats_seek] at hnext
  obtain ⟨hsub, hadd⟩ := hnext hk
  rw [seekFits_iff hm hle] at h
  rw [seekFits_iff hm hk]
  rw [beats_seek, Nat.min_eq_left hk, cursor_seek p hle] at hsub hadd
  rw [seek_laid hm hle] at hsub hadd
  obtain ⟨beats, cursor, path⟩ := m
  cases path with
  | stand | arc => exact h
  | line =>
    simp only [Motion.placeFrom, Path.offset_zero, Vec.sub_zero] at hadd
    exact Vec.addFits_of_rest h hsub hadd

theorem prev_seek (hm : m.Laid) (hk : k + 1 ≤ m.beats) (h : (Walk.mk m p).SeekFits (k + 1))
    (hprev : ((Walk.mk m p).seek (k + 1)).PrevFits) :
    ((Walk.mk m p).seek (k + 1)).prev = (Walk.mk m p).seek k := by
  have hle : k ≤ m.beats := Nat.le_of_lt hk
  have hcursor := cursor_seek p hk
  rw [PrevFits, hcursor] at hprev
  obtain ⟨hback, -⟩ := hprev (Nat.succ_ne_zero k)
  rw [beats_seek, hcursor, Nat.add_sub_cancel, Nat.min_eq_left hle] at hback
  rw [seekFits_iff hm hk] at h
  rw [prev, hcursor, if_neg (Nat.succ_ne_zero k), Nat.add_sub_cancel, seek_laid hm hle,
    seek_laid hm hk, seek_eq _ hle]
  exact congrArg (Walk.mk _) (Motion.placeFrom_back h hback)

theorem toStart_toEnd (hm : m.Laid) (hcut : m.Cut → 1 ≤ m.beats) (h₀ : m.beats = 0)
    (hent : m.Entered p) (h : (Walk.mk m p).ToEndFits) : (Walk.mk m p).toEnd.toStart = ⟨m, p⟩ := by
  have hspan : ∀ n ∈ m.path.span?, n = 0 := by
    -- laid out for any beats, it would have been cut down to none
    intro n hn
    refine Nat.eq_zero_of_not_pos fun hpos => ?_
    have := hcut ⟨n, hn, by omega⟩
    omega
  obtain ⟨beats, cursor, path⟩ := m
  obtain rfl : beats = 0 := h₀
  obtain rfl : cursor = 0 := hm.cursor
  cases path with
  | stand => rfl
  | line => exact congrArg (Walk.mk _) (Vec.add_sub_self h)
  | arc center radius start finish span backwards =>
    obtain rfl : span = 0 := hspan span rfl
    exact congrArg (Walk.mk _) hent

end Walk
end FieldShow
