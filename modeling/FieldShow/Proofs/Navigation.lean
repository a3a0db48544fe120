import FieldShow.Proofs.Jumps

/-!
From beat to beat. Wherever the controls have led, even into a scene that is over at once, the next
step leads one beat on and to where that beat is located, and the step back one beat back. So no
beat is passed over, told twice or too many.
-/

namespace FieldShow
namespace Playhead

variable {t : Timeline} {h h' : Playhead} {beat i k : Nat}

/-- On a beat of the show, in the scene in which it is located. -/
structure Visits (t : Timeline) (beat : Nat) (h : Playhead) : Prop where
  timeline : h.timeline = t
  located : t.locate beat = .ok (h.scene, h.beat)

theorem Visits.globalBeat_eq (hv : h.Visits t beat) : h.globalBeat = beat := by
  obtain ⟨rfl, hloc⟩ := hv
  obtain ⟨hsum, sc, hsc, -⟩ := Timeline.locate_ok hloc
  rw [globalBeat, Timeline.sceneStart?_eq hsc]
  exact hsum

theorem Within.globalBeat_of_empty (hin : h.Within t) (hempty : t.scenes = []) :
    h.globalBeat = 0 := by
  obtain ⟨rfl, ⟨-, -, hbeat⟩ | ⟨sc, hsc, -⟩⟩ := hin
  · have hstart : h.timeline.sceneStart? h.scene = none :=
      Timeline.sceneStart?_eq_none_iff.2 (by simp [hempty])
    rw [globalBeat, hstart, hbeat]
    rfl
  · rw [hempty] at hsc
    cases hsc

theorem Within.globalBeat_le (hin : h.Within t) : h.globalBeat ≤ t.total := by
  obtain ⟨hempty, -⟩ | ⟨sc, hsc, hbeat⟩ := hin.place
  · rw [hin.globalBeat_of_empty hempty]
    exact Nat.zero_le _
  · have hstart : h.globalBeat = t.beatsBefore h.scene + h.beat := by
      rw [globalBeat, hin.timeline, Timeline.sceneStart?_eq hsc]
      rfl
    have hend := Timeline.beatsBefore_succ hsc
    have hall := t.beatsBefore_le_total (h.scene + 1)
    omega

theorem Within.exists_locate (hin : h.Within t) (hle : beat ≤ t.total)
    (hne : h.globalBeat ≠ beat) : ∃ i k, t.locate beat = .ok (i, k) := by
  have hscenes : t.scenes ≠ [] := by
    intro hempty
    have hzero := hin.globalBeat_of_empty hempty
    have htotal : t.total = 0 := by rw [Timeline.total_eq, hempty, sumOf_nil]
    omega
  obtain ⟨⟨i, k⟩, hloc⟩ := Timeline.locate_of_le hscenes hle
  exact ⟨i, k, hloc⟩

theorem visits_moveTo (ht : h.timeline = t) (hloc : t.locate beat = .ok (i, k))
    (move : Track → Track) : (h.moveTo move i k).Visits t beat := by
  subst ht
  obtain ⟨htimeline, hlocated⟩ := located_moveTo hloc move
  exact ⟨htimeline, hlocated⟩

theorem Within.exists_next (hin : h.Within t) (hlt : h.globalBeat < t.total) :
    ∃ h', h.next = (true, h') ∧ h'.Visits t (h.globalBeat + 1) := by
  obtain rfl := hin.timeline
  obtain ⟨i, k, hloc⟩ := hin.exists_locate hlt (Nat.ne_of_lt (Nat.lt_succ_self _))
  exact ⟨_, next_of_located hlt hloc, visits_moveTo rfl hloc Track.next⟩

theorem Within.exists_prev (hin : h.Within t) (hpos : 0 < h.globalBeat) :
    ∃ h', h.prev = (true, h') ∧ h'.Visits t (h.globalBeat - 1) := by
  obtain rfl := hin.timeline
  have hle : h.globalBeat - 1 ≤ h.timeline.total := Nat.le_trans (Nat.sub_le ..) hin.globalBeat_le
  obtain ⟨i, k, hloc⟩ := hin.exists_locate hle (by omega)
  refine ⟨_, ?_, visits_moveTo rfl hloc Track.prev⟩
  rw [prev, if_neg (Nat.ne_of_gt hpos), hloc]

theorem goto_of_located (ht : h.timeline = t) (hloc : t.locate beat = .ok (i, k)) :
    ∃ h', h.goto beat = (.ok (), h') ∧ h'.Visits t beat := by
  subst ht
  have hat := at_load (h := h) rfl hloc
  refine ⟨h.load i k, ?_, hat.timeline, hat.located⟩
  rw [goto, hloc]

theorem goto_of_fault (ht : h.timeline = t) {f : Fault} (hloc : t.locate beat = .error f) :
    h.goto beat = (.error f, h) := by
  subst ht
  rw [goto, hloc]

theorem visits_iff {α : Type} {done : α} {control : α × Playhead} {P : Prop}
    (hdone : P → ∃ h', control = (done, h') ∧ h'.Visits t beat) (hfailed : ¬P → control.1 ≠ done) :
    ((∃ h', control = (done, h')) ↔ P) ∧ ∀ h', control = (done, h') →
      h'.globalBeat = beat ∧ t.locate beat = .ok (h'.scene, h'.beat) := by
  rcases Classical.em P with hP | hP
  · obtain ⟨h', rfl, hv⟩ := hdone hP
    refine ⟨iff_of_true ⟨h', rfl⟩ hP, fun other hother => ?_⟩
    obtain rfl := (Prod.mk.inj hother).2
    exact ⟨hv.globalBeat_eq, hv.located⟩
  · have hnot (h' : Playhead) : control ≠ (done, h') := fun heq =>
      hfailed hP (congrArg Prod.fst heq)
    exact ⟨iff_of_false (fun ⟨h', heq⟩ => hnot h' heq) hP, fun h' heq => absurd heq (hnot h')⟩

theorem Within.globalBeat_press_next (hin : h.Within t) :
    (h.press .next).2.globalBeat = min (h.globalBeat + 1) t.total := by
  rcases Nat.lt_or_ge h.globalBeat t.total with hlt | hend
  · obtain ⟨h', hnext, hv⟩ := hin.exists_next hlt
    rw [Playhead.press, hnext, hv.globalBeat_eq, Nat.min_eq_left hlt]
  · have hover : h.next = (false, h) := next_of_end (hin.timeline ▸ hend)
    have hle := hin.globalBeat_le
    rw [Playhead.press, hover, Nat.min_eq_right (Nat.le_succ_of_le hend)]
    exact Nat.le_antisymm hle hend

theorem Within.globalBeat_press_prev (hin : h.Within t) :
    (h.press .prev).2.globalBeat = h.globalBeat - 1 := by
  rcases Nat.eq_zero_or_pos h.globalBeat with hzero | hpos
  · rw [Playhead.press, prev, if_pos hzero, hzero]
  · obtain ⟨h', hprev, hv⟩ := hin.exists_prev hpos
    rw [Playhead.press, hprev, hv.globalBeat_eq]

theorem pressAll_cons (h : Playhead) (c : Control) (cs : List Control) :
    h.pressAll (c :: cs) = (h.press c).2.pressAll cs := rfl

theorem Within.globalBeat_nexts (hin : h.Within t) (n : Nat) :
    (h.pressAll (List.replicate n .next)).globalBeat = min (h.globalBeat + n) t.total := by
  induction n generalizing h with
  | zero => exact (Nat.min_eq_left hin.globalBeat_le).symm
  | succ n ih =>
    rw [List.replicate_succ, pressAll_cons, ih (hin.press .next), hin.globalBeat_press_next]
    omega

theorem Within.globalBeat_prevs (hin : h.Within t) (n : Nat) :
    (h.pressAll (List.replicate n .prev)).globalBeat = h.globalBeat - n := by
  induction n generalizing h with
  | zero => rfl
  | succ n ih =>
    rw [List.replicate_succ, pressAll_cons, ih (hin.press .prev), hin.globalBeat_press_prev]
    omega

/-- Wherever the controls have led, the beat is one of the show. A step on succeeds before the last
beat, a step back after the first, and a beat can be gone to if it is located; each leads to where
the beat that is meant is located. A control that fails leaves all as it is. So step by step one
comes to every beat up to the last, and back to the first. -/
theorem visits_every_beat (t : Timeline) (cs : List Control) :
    let h := (start t).pressAll cs
    let g := h.globalBeat
    (g ≤ t.total ∧ t.total < UInt32.size) ∧
    (((∃ h', h.next = (true, h')) ↔ g < t.total) ∧ ∀ h', h.next = (true, h') →
      h'.globalBeat = g + 1 ∧ t.locate (g + 1) = .ok (h'.scene, h'.beat)) ∧
    (((∃ h', h.prev = (true, h')) ↔ 0 < g) ∧ ∀ h', h.prev = (true, h') →
      h'.globalBeat = g - 1 ∧ t.locate (g - 1) = .ok (h'.scene, h'.beat)) ∧
    (∀ beat, ((∃ h', h.goto beat = (.ok (), h')) ↔ ∃ place, t.locate beat = .ok place) ∧
      ∀ h', h.goto beat = (.ok (), h') →
        h'.globalBeat = beat ∧ t.locate beat = .ok (h'.scene, h'.beat)) ∧
    (∀ c, (h.press c).1 = false → (h.press c).2 = h) ∧
    ∀ n, (h.pressAll (List.replicate n .next)).globalBeat = min (g + n) t.total ∧
      (h.pressAll (List.replicate n .prev)).globalBeat = g - n := by
  intro h g
  have hin : h.Within t := (within_start t).pressAll cs
  refine ⟨⟨hin.globalBeat_le, t.total_lt⟩, ?_, ?_, fun beat => ?_, fun _ => press_of_fail,
    fun n => ⟨hin.globalBeat_nexts n, hin.globalBeat_prevs n⟩⟩
  · refine visits_iff hin.exists_next fun hend => ?_
    rw [next_of_end (hin.timeline ▸ Nat.not_lt.1 hend)]
    exact Bool.false_ne_true
  · refine visits_iff hin.exists_prev fun hzero => ?_
    rw [prev, if_pos (Nat.eq_zero_of_not_pos hzero)]
    exact Bool.false_ne_true
  · have hgoes (h : ∃ place, t.locate beat = .ok place) :=
      goto_of_located hin.timeline h.choose_spec
    refine visits_iff hgoes fun hnone => ?_
    cases hloc : t.locate beat with
    | ok place => exact absurd ⟨place, hloc⟩ hnone
    | error f =>
      rw [goto_of_fault hin.timeline hloc]
      intro hok
      cases hok

theorem visits_every_beat_hurried :
    let h := (start .hurried).pressAll [.gotoScene 0]
    (h.scene = 0 ∧ Timeline.hurried.locate 1 = .ok (2, 1)) ∧
      ∃ h', h.next = (true, h') ∧ h'.globalBeat = 1 ∧ h'.scene = 2 ∧ h'.beat = 1 := by
  intro h
  have hscene : h.scene = 0 := by decide +kernel
  have hzero : h.globalBeat = 0 := by decide +kernel
  have htotal : Timeline.hurried.total = 4 := by decide +kernel
  have hloc : Timeline.hurried.locate 1 = .ok (2, 1) :=
    Timeline.eq_ok_of_toOption (by decide +kernel)
  obtain ⟨-, ⟨hiff, hnext⟩, -⟩ := visits_every_beat .hurried [.gotoScene 0]
  have hlt : h.globalBeat < Timeline.hurried.total := by omega
  obtain ⟨h', hh'⟩ := hiff.2 hlt
  obtain ⟨hbeat, hthere⟩ := hnext h' hh'
  rw [hzero] at hbeat hthere
  obtain ⟨hsecond, hone⟩ := Prod.mk.inj (Except.ok.inj (hloc.symm.trans hthere))
  exact ⟨⟨hscene, hloc⟩, h', hh', hbeat, hsecond.symm, hone.symm⟩

end Playhead
end FieldShow
