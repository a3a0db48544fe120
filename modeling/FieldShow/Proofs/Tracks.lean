import FieldShow.Numeric.Sum
import FieldShow.Timeline.Track
import FieldShow.Proofs.Walking

/-!
Tracks moved on and back. A track that is moved on a beat is the one that is set up a beat later,
even where sums saturate; moved back it is the one that is set up a beat earlier, where they do not.
-/

namespace FieldShow

theorem Walk.pos_toEnd {m : Motion} (hm : m.Laid) (p : Vec) :
    (Walk.mk m p).toEnd.pos = m.destination p := by rw [Motion.destination, hm.rewind]

theorem Walk.beats_toEnd (m : Motion) (p : Vec) : (Walk.mk m p).toEnd.motion.beats = m.beats := by
  unfold Walk.toEnd
  split <;> rfl

theorem Walk.cursor_toEnd (m : Motion) (p : Vec) : (Walk.mk m p).toEnd.motion.cursor = m.beats := by
  by_cases h : 0 < m.beats
  · rw [toEnd, if_pos h]
    exact cursor_seek p (Nat.le_refl _)
  · rw [toEnd, if_neg h]
    exact (Nat.eq_zero_of_not_pos h).symm

theorem Walk.next_toEnd (m : Motion) (p : Vec) : (Walk.mk m p).toEnd.next = (Walk.mk m p).toEnd :=
  if_neg (by simp [cursor_toEnd, beats_toEnd])

theorem Walk.not_running_toEnd (m : Motion) (p : Vec) : ¬(Walk.mk m p).toEnd.Running := by
  simp [Running, cursor_toEnd, beats_toEnd]

theorem Walk.toEnd_of_pos {m : Motion} (h : 0 < m.beats) (p : Vec) :
    (Walk.mk m p).toEnd = (Walk.mk m p).seek m.beats := if_pos h

namespace Track

variable {m n : Motion} {ms rest played : List Motion} {p : Vec} {k : Nat}

theorem seekFrom_of_lt (h : k < m.beats) : seekFrom played (m :: rest) p k =
    ⟨((Walk.mk m p).seek k).pos, played, ((Walk.mk m p).seek k).motion :: rest⟩ := by
  simp [seekFrom, h]

theorem seekFrom_last (h : m.beats ≤ k) : seekFrom played [m] p k =
    ⟨(Walk.mk m p).toEnd.pos, played, [(Walk.mk m p).toEnd.motion]⟩ := by
  simp [seekFrom, Nat.not_lt.2 h]

theorem seekFrom_cons (h : m.beats ≤ k) : seekFrom played (m :: n :: rest) p k =
    seekFrom ((Walk.mk m p).toEnd.motion :: played) (n :: rest) (Walk.mk m p).toEnd.pos
      (k - m.beats) := by
  rw [seekFrom, if_neg (Nat.not_lt.2 h)]

theorem pos_seekFrom (hlaid : ∀ m ∈ ms, m.Laid) (played : List Motion) (p : Vec) (k : Nat) :
    (seekFrom played ms p k).pos = Motion.positionAfter ms p k := by
  induction ms generalizing played p k with
  | nil => rfl
  | cons m rest ih =>
    obtain ⟨hm, hrest⟩ := List.forall_mem_cons.1 hlaid
    rw [Motion.positionAfter]
    split
    · next h => rw [seekFrom_of_lt h]
    · next h =>
      rw [← Walk.pos_toEnd hm]
      have h := Nat.le_of_not_lt h
      cases rest with
      | nil =>
        rw [seekFrom_last h]
        rfl
      | cons n rest =>
        rw [seekFrom_cons h]
        exact ih hrest ..

/-! ## On -/

theorem advance_eq_seekFrom (hlaid : ∀ m ∈ ms, m.Laid)
    (hent : ∀ q ∈ Motion.starts ms p, 0 < q.2.beats → q.2.Entered q.1) (hne : ms ≠ [])
    (played : List Motion) (last : Motion) :
    advance played last ms p = seekFrom (last :: played) ms p 0 := by
  induction ms generalizing played last p with
  | nil => exact absurd rfl hne
  | cons m rest ih =>
    obtain ⟨hm, hrest⟩ := List.forall_mem_cons.1 hlaid
    obtain ⟨hfirst, hlater⟩ := List.forall_mem_cons.1 hent
    rw [advance]
    simp only [Walk.enter_eq hm]
    by_cases h : m.beats = 0
    · -- both pass a motion that takes no time
      rw [if_pos h, Walk.beats_toEnd, if_pos h]
      cases rest with
      | nil =>
        rw [seekFrom_last (Nat.le_of_eq h)]
        rfl
      | cons n rest =>
        rw [seekFrom_cons (Nat.le_of_eq h), Nat.zero_sub]
        rw [← Walk.pos_toEnd hm] at hlater
        exact ih hrest hlater (List.cons_ne_nil n rest) ..
    · have hpos := Nat.pos_of_ne_zero h
      rw [if_neg h, if_neg h, seekFrom_of_lt hpos, Walk.seek_zero hm (hfirst hpos)]

theorem next_seekFrom (hlaid : ∀ m ∈ ms, m.Laid)
    (hent : ∀ q ∈ Motion.starts ms p, 0 < q.2.beats → q.2.Entered q.1) (played : List Motion)
    (k : Nat) : (seekFrom played ms p k).next = seekFrom played ms p (k + 1) := by
  induction ms generalizing played p k with
  | nil => rfl
  | cons m rest ih =>
    obtain ⟨hm, hrest⟩ := List.forall_mem_cons.1 hlaid
    obtain ⟨hfirst, hlater⟩ := List.forall_mem_cons.1 hent
    rw [← Walk.pos_toEnd hm] at hlater
    by_cases hk : k < m.beats
    · rw [seekFrom_of_lt hk, next]
      simp only [Walk.next_seek hm hk p]
      by_cases hlast : k + 1 < m.beats
      · rw [if_pos, seekFrom_of_lt hlast]
        rwa [Walk.Running, Walk.beats_seek, Walk.cursor_seek p hk]
      · -- the last beat of a motion is where the next one that takes time begins
        have hall : k + 1 = m.beats := by omega
        rw [hall, ← Walk.toEnd_of_pos (Nat.zero_lt_of_lt hk) p, if_neg (Walk.not_running_toEnd m p)]
        cases rest with
        | nil =>
          rw [seekFrom_last (Nat.le_refl _)]
          rfl
        | cons n rest =>
          rw [seekFrom_cons (Nat.le_refl _), Nat.sub_self]
          exact advance_eq_seekFrom hrest hlater (List.cons_ne_nil n rest) ..
    · -- the first motion is over on either beat
      have hk := Nat.le_of_not_lt hk
      cases rest with
      | nil =>
        rw [seekFrom_last hk, seekFrom_last (Nat.le_succ_of_le hk), next]
        simp only [Walk.next_toEnd m p]
        exact if_neg (Walk.not_running_toEnd m p)
      | cons n rest =>
        rw [seekFrom_cons hk, seekFrom_cons (Nat.le_succ_of_le hk), ih hrest hlater,
          Nat.succ_sub hk]

end Track

/-! ## Back -/

/-- Motions that lead from `p` on and can be walked back. -/
structure Motion.Reversible (ms : List Motion) (p : Vec) : Prop where
  laid : ∀ m ∈ ms, m.Laid
  cut : ∀ m ∈ ms, m.Cut → 1 ≤ m.beats
  entered : ∀ q ∈ starts ms p, q.2.Entered q.1

theorem Motion.Reversible.tail {m : Motion} {ms : List Motion} {p : Vec}
    (h : Reversible (m :: ms) p) : Reversible ms (Walk.mk m p).toEnd.pos where
  laid := (List.forall_mem_cons.1 h.laid).2
  cut := (List.forall_mem_cons.1 h.cut).2
  entered := by
    rw [Walk.pos_toEnd (List.forall_mem_cons.1 h.laid).1]
    exact (List.forall_mem_cons.1 h.entered).2

namespace Track

/-- No sum on the way to beat `k` saturates. -/
def SeekFits : List Motion → Vec → Nat → Prop
  | [], _, _ => True
  | m :: rest, p, k =>
    if k < m.beats then (Walk.mk m p).SeekFits k
    else (Walk.mk m p).ToEndFits ∧ SeekFits rest (Walk.mk m p).toEnd.pos (k - m.beats)

def AdvanceFits : List Motion → Vec → Prop
  | [], _ => True
  | m :: rest, p => (Walk.mk m p).EnterFits ∧
    ((Walk.mk m p).enter.motion.beats = 0 → AdvanceFits rest (Walk.mk m p).enter.pos)

def NextFits (t : Track) : Prop :=
  match t.ahead with
  | [] => True
  | m :: rest => (Walk.mk m t.pos).NextFits ∧
    (¬(Walk.mk m t.pos).next.Running → AdvanceFits rest (Walk.mk m t.pos).next.pos)

def RetreatFits : List Motion → Motion → Vec → Prop
  | [], m, p =>
    if m.beats ≠ 0 ∧ m.cursor ≠ 0 then (Walk.mk m p).PrevFits
    else m.beats = 0 → (Walk.mk m p).ToStartFits
  | before :: played, m, p =>
    if m.beats ≠ 0 ∧ m.cursor ≠ 0 then (Walk.mk m p).PrevFits
    else (m.beats = 0 → (Walk.mk m p).ToStartFits) ∧
      RetreatFits played before (if m.beats = 0 then (Walk.mk m p).toStart.pos else p)

def PrevFits (t : Track) : Prop :=
  match t.ahead with
  | [] => True
  | m :: _ => RetreatFits t.played m t.pos

instance decidableSeekFits :
    (ms : List Motion) → (p : Vec) → (k : Nat) → Decidable (SeekFits ms p k)
  | [], _, _ => .isTrue trivial
  | m :: rest, p, k =>
    have := decidableSeekFits rest (Walk.mk m p).toEnd.pos (k - m.beats)
    inferInstanceAs (Decidable (ite ..))

instance decidableAdvanceFits : (ms : List Motion) → (p : Vec) → Decidable (AdvanceFits ms p)
  | [], _ => .isTrue trivial
  | m :: rest, p =>
    have := decidableAdvanceFits rest (Walk.mk m p).enter.pos
    inferInstanceAs (Decidable (_ ∧ (_ → _)))

instance decidableRetreatFits :
    (played : List Motion) → (m : Motion) → (p : Vec) → Decidable (RetreatFits played m p)
  | [], _, _ => inferInstanceAs (Decidable (ite ..))
  | before :: played, m, p =>
    have := decidableRetreatFits played before
      (if m.beats = 0 then (Walk.mk m p).toStart.pos else p)
    inferInstanceAs (Decidable (ite ..))

instance (t : Track) : Decidable t.NextFits :=
  match h : t.ahead with
  | [] => .isTrue (by simp [NextFits, h])
  | m :: rest => decidable_of_iff ((Walk.mk m t.pos).NextFits ∧
      (¬(Walk.mk m t.pos).next.Running → AdvanceFits rest (Walk.mk m t.pos).next.pos))
    (by simp [NextFits, h])

instance (t : Track) : Decidable t.PrevFits :=
  match h : t.ahead with
  | [] => .isTrue (by simp [PrevFits, h])
  | m :: _ => decidable_of_iff (RetreatFits t.played m t.pos) (by simp [PrevFits, h])

variable {m b : Motion} {ms rest played : List Motion} {p : Vec} {j k : Nat}

theorem SeekFits.mono (hlaid : ∀ m ∈ ms, m.Laid) (h : SeekFits ms p k) (hj : j ≤ k) :
    SeekFits ms p j := by
  induction ms generalizing p j k with
  | nil => trivial
  | cons m rest ih =>
    obtain ⟨hm, hrest⟩ := List.forall_mem_cons.1 hlaid
    rw [SeekFits] at h ⊢
    by_cases hjm : j < m.beats
    · rw [if_pos hjm]
      split at h
      · next hkm => exact h.mono hm hj (Nat.le_of_lt hkm)
      · have hend := h.1
        rw [Walk.ToEndFits, if_pos (Nat.zero_lt_of_lt hjm)] at hend
        exact hend.mono hm (Nat.le_of_lt hjm) (Nat.le_refl _)
    · rw [if_neg hjm]
      rw [if_neg (by omega)] at h
      exact ⟨h.1, ih hrest h.2 (Nat.sub_le_sub_right hj _)⟩

theorem AdvanceFits.seek (hlaid : ∀ m ∈ ms, m.Laid) (h : AdvanceFits ms p) : SeekFits ms p 0 := by
  induction ms generalizing p with
  | nil => trivial
  | cons m rest ih =>
    obtain ⟨hm, hrest⟩ := List.forall_mem_cons.1 hlaid
    obtain ⟨henter, hlater⟩ := h
    rw [SeekFits]
    split
    · rw [Walk.seekFits_iff hm (Nat.zero_le _), Path.offset_zero]
      exact Vec.addFits_zero p
    · next h₀ =>
      have h₀ := Nat.eq_zero_of_not_pos h₀
      have hend := henter h₀
      rw [Walk.enter_eq hm, if_pos h₀, Walk.beats_toEnd] at hlater
      exact ⟨by rwa [← hm.rewind], by rw [Nat.zero_sub]; exact ih hrest (hlater h₀)⟩

theorem SeekFits.on (hlaid : ∀ m ∈ ms, m.Laid) (h : SeekFits ms p k)
    (hnext : (seekFrom played ms p k).NextFits) : SeekFits ms p (k + 1) := by
  induction ms generalizing played p k with
  | nil => trivial
  | cons m rest ih =>
    obtain ⟨hm, hrest⟩ := List.forall_mem_cons.1 hlaid
    rw [SeekFits] at h ⊢
    by_cases hk : k < m.beats
    · rw [if_pos hk] at h
      rw [seekFrom_of_lt hk] at hnext
      obtain ⟨hstep, hover⟩ := hnext
      have hseek := h.on hm hk hstep
      split
      · exact hseek
      · have hall : k + 1 = m.beats := by omega
        have hend := Walk.toEnd_of_pos (Nat.zero_lt_of_lt hk) p
        rw [Walk.next_seek hm hk, hall, ← hend] at hover
        refine ⟨?_, ?_⟩
        · rwa [Walk.ToEndFits, if_pos (Nat.zero_lt_of_lt hk), ← hall]
        · rw [hall, Nat.sub_self]
          exact (hover (Walk.not_running_toEnd m p)).seek hrest
    · rw [if_neg hk] at h
      have hk := Nat.le_of_not_lt hk
      rw [if_neg (by omega), Nat.succ_sub hk]
      refine ⟨h.1, ?_⟩
      cases rest with
      | nil => trivial
      | cons n rest =>
        rw [seekFrom_cons hk] at hnext
        exact ih hrest h.2 hnext

theorem retreat_of_running (h : m.beats ≠ 0 ∧ m.cursor ≠ 0) : retreat played m rest p =
    ⟨(Walk.mk m p).prev.pos, played, (Walk.mk m p).prev.motion :: rest⟩ := by
  rw [retreat.eq_def]
  exact if_pos h

theorem retreatFits_of_running (h : m.beats ≠ 0 ∧ m.cursor ≠ 0) :
    RetreatFits played m p = (Walk.mk m p).PrevFits := by
  cases played <;> exact if_pos h

theorem retreat_cons (h : ¬(m.beats ≠ 0 ∧ m.cursor ≠ 0)) : retreat (b :: played) m rest p =
    let w := if m.beats = 0 then (Walk.mk m p).toStart else ⟨m, p⟩
    retreat played b (w.motion :: rest) w.pos := by
  rw [retreat.eq_def]
  exact if_neg h

theorem retreatFits_cons (h : ¬(m.beats ≠ 0 ∧ m.cursor ≠ 0)) : RetreatFits (b :: played) m p =
    ((m.beats = 0 → (Walk.mk m p).ToStartFits) ∧
      RetreatFits played b (if m.beats = 0 then (Walk.mk m p).toStart.pos else p)) :=
  if_neg h

theorem retreat_seek (played rest : List Motion) (hm : m.Laid) (hk : k + 1 ≤ m.beats)
    (h : (Walk.mk m p).SeekFits (k + 1))
    (hprev : RetreatFits played ((Walk.mk m p).seek (k + 1)).motion
      ((Walk.mk m p).seek (k + 1)).pos) :
    retreat played ((Walk.mk m p).seek (k + 1)).motion rest ((Walk.mk m p).seek (k + 1)).pos =
      seekFrom played (m :: rest) p k := by
  have hrunning : ((Walk.mk m p).seek (k + 1)).motion.beats ≠ 0 ∧
      ((Walk.mk m p).seek (k + 1)).motion.cursor ≠ 0 := by
    rw [Walk.cursor_seek p hk]
    exact ⟨Nat.ne_of_gt (Nat.zero_lt_of_lt hk), Nat.succ_ne_zero k⟩
  rw [retreatFits_of_running hrunning] at hprev
  rw [retreat_of_running hrunning, seekFrom_of_lt hk]
  simp only [Walk.prev_seek hm hk h hprev]

theorem retreat_toEnd (b : Motion) (played rest : List Motion) (hm : m.Laid)
    (hcut : m.Cut → 1 ≤ m.beats) (h₀ : m.beats = 0) (hent : m.Entered p)
    (h : (Walk.mk m p).ToEndFits) :
    retreat (b :: played) (Walk.mk m p).toEnd.motion rest (Walk.mk m p).toEnd.pos =
        retreat played b (m :: rest) p ∧
      (RetreatFits (b :: played) (Walk.mk m p).toEnd.motion (Walk.mk m p).toEnd.pos →
        RetreatFits played b p) := by
  have hback := Walk.toStart_toEnd hm hcut h₀ hent h
  have hzero : (Walk.mk m p).toEnd.motion.beats = 0 := by rw [Walk.beats_toEnd, h₀]
  have hover : ¬((Walk.mk m p).toEnd.motion.beats ≠ 0 ∧
      (Walk.mk m p).toEnd.motion.cursor ≠ 0) := fun h => h.1 hzero
  rw [retreat_cons hover, retreatFits_cons hover, if_pos hzero, if_pos hzero, hback]
  exact ⟨rfl, And.right⟩

theorem prev_seekFrom_zero (b : Motion) (played : List Motion) (h : Motion.Reversible ms p)
    (hne : ms ≠ []) (hfits : SeekFits ms p 0) :
    (seekFrom (b :: played) ms p 0).prev = retreat played b ms p ∧
      ((seekFrom (b :: played) ms p 0).PrevFits → RetreatFits played b p) := by
  -- motions without beats at the start are undone first
  induction ms generalizing b played p with
  | nil => exact absurd rfl hne
  | cons m rest ih =>
    have hm := (List.forall_mem_cons.1 h.laid).1
    have hent := (List.forall_mem_cons.1 h.entered).1
    by_cases hpos : 0 < m.beats
    · -- the marcher waits at the start of a motion, and the one before it is taken up again
      have hzero := Nat.ne_of_gt hpos
      rw [seekFrom_of_lt hpos, Walk.seek_zero hm hent]
      have hstart : ¬(m.beats ≠ 0 ∧ m.cursor ≠ 0) := fun h => h.2 hm.cursor
      simp only [prev, PrevFits]
      rw [retreat_cons hstart, retreatFits_cons hstart, if_neg hzero, if_neg hzero]
      exact ⟨rfl, And.right⟩
    · have h₀ := Nat.eq_zero_of_not_pos hpos
      rw [SeekFits, if_neg hpos, Nat.zero_sub] at hfits
      have hover := retreat_toEnd b played rest hm
        (List.forall_mem_cons.1 h.cut).1 h₀ hent hfits.1
      cases rest with
      | nil =>
        rw [seekFrom_last (Nat.le_of_eq h₀)]
        exact hover
      | cons n rest =>
        rw [seekFrom_cons (Nat.le_of_eq h₀), Nat.zero_sub]
        obtain ⟨hprev, hback⟩ := ih (Walk.mk m p).toEnd.motion (b :: played)
          h.tail (List.cons_ne_nil n rest) hfits.2
        exact ⟨hprev.trans hover.1, hover.2 ∘ hback⟩

/-- A track that is moved back a beat is the one that is set up a beat earlier. -/
theorem prev_seekFrom (h : Motion.Reversible ms p) (hk : k < sumOf Motion.beats ms)
    (hfits : SeekFits ms p (k + 1)) (hprev : (seekFrom played ms p (k + 1)).PrevFits) :
    (seekFrom played ms p (k + 1)).prev = seekFrom played ms p k := by
  induction ms generalizing played p k with
  | nil => exact absurd hk (Nat.not_lt_zero k)
  | cons m rest ih =>
    have hm := (List.forall_mem_cons.1 h.laid).1
    rw [SeekFits] at hfits
    rw [sumOf_cons] at hk
    by_cases hlt : k + 1 < m.beats
    · -- in the middle of the first motion
      rw [if_pos hlt] at hfits
      rw [seekFrom_of_lt hlt] at hprev ⊢
      exact retreat_seek played rest hm (Nat.le_of_lt hlt) hfits hprev
    · rw [if_neg hlt] at hfits
      by_cases hall : k + 1 = m.beats
      · -- at its end, where those that follow and take no time are undone first
        have hpos : 0 < m.beats := by omega
        have hend := Walk.toEnd_of_pos hpos p
        rw [← hall] at hend
        have hseek : (Walk.mk m p).SeekFits (k + 1) := by
          have := hfits.1
          rwa [Walk.ToEndFits, if_pos hpos, ← hall] at this
        have hback := retreat_seek played rest hm (Nat.le_of_eq hall) hseek
        rw [← hend] at hback
        cases rest with
        | nil =>
          rw [seekFrom_last (Nat.le_of_eq hall.symm)] at hprev ⊢
          exact hback hprev
        | cons n rest =>
          rw [seekFrom_cons (Nat.le_of_eq hall.symm), ← hall, Nat.sub_self] at hprev ⊢
          rw [← hall, Nat.sub_self] at hfits
          obtain ⟨hover, hoverFits⟩ := prev_seekFrom_zero (Walk.mk m p).toEnd.motion
            played h.tail (List.cons_ne_nil n rest) hfits.2
          rw [hover]
          exact hback (hoverFits hprev)
      · -- in one of those that follow
        have hle : m.beats ≤ k := by omega
        cases rest with
        | nil =>
          rw [sumOf_nil] at hk
          omega
        | cons n rest =>
          rw [seekFrom_cons (by omega), Nat.succ_sub hle] at hprev ⊢
          rw [seekFrom_cons hle]
          rw [Nat.succ_sub hle] at hfits
          exact ih h.tail (by omega) hfits.2 hprev

end Track
end FieldShow
