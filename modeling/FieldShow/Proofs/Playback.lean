import FieldShow.Proofs.Beats
import FieldShow.Proofs.Budget
import FieldShow.Proofs.Tracks
import FieldShow.Timeline.Playhead

/-!
Scrubbing. Whatever controls are pressed, the tracks are those that are set up anew at the same
beat, and so the marchers stand where random access finds them.
-/

namespace FieldShow

/-! ## Controls -/

namespace Playhead

inductive Control where
  | next
  | prev
  | goto (beat : Nat)
  | gotoScene (scene : Nat)
  | nextScene
  | prevScene
deriving DecidableEq, Repr

def press (h : Playhead) : Control → Bool × Playhead
  | .next => h.next
  | .prev => h.prev
  | .goto beat => (h.goto beat).map Except.isOk id
  | .gotoScene scene => (h.gotoScene scene).map Except.isOk id
  | .nextScene => h.nextScene
  | .prevScene => h.prevScene

def pressAll (h : Playhead) (cs : List Control) : Playhead := cs.foldl (fun h c => (h.press c).2) h

def sceneBeats (h : Playhead) : Nat := (h.timeline.scenes[h.scene]?.map Scene.beats).getD 0

/-- Where a control that succeeds leads. -/
inductive Moves (h : Playhead) : Control → Playhead → Prop
  | next {i k : Nat} (hlt : h.globalBeat < h.timeline.total)
      (hloc : h.timeline.locate (h.globalBeat + 1) = .ok (i, k)) :
      h.Moves .next (h.moveTo Track.next i k)
  | prev {i k : Nat} (hpos : h.globalBeat ≠ 0)
      (hloc : h.timeline.locate (h.globalBeat - 1) = .ok (i, k)) :
      h.Moves .prev (h.moveTo Track.prev i k)
  | goto {beat i k : Nat} (hloc : h.timeline.locate beat = .ok (i, k)) :
      h.Moves (.goto beat) (h.load i k)
  | gotoScene {i : Nat} {sc : Scene} (hsc : h.timeline.scenes[i]? = some sc) :
      h.Moves (.gotoScene i) (h.load i 0)
  | nextScene (hlt : h.scene + 1 < h.timeline.scenes.length) :
      h.Moves .nextScene (h.load (h.scene + 1) 0)
  | sceneEnd (hlast : ¬h.scene + 1 < h.timeline.scenes.length) (hne : h.beat ≠ h.sceneBeats) :
      h.Moves .nextScene (h.load h.scene h.sceneBeats)
  | sceneStart (hpos : 0 < h.beat) : h.Moves .prevScene (h.load h.scene 0)
  | prevScene (hzero : ¬0 < h.beat) (hne : h.scene ≠ 0) :
      h.Moves .prevScene (h.load (h.scene - 1) 0)

theorem press_cases (h : Playhead) (c : Control) :
    h.press c = (false, h) ∨ ∃ h', h.press c = (true, h') ∧ h.Moves c h' := by
  cases c with
  | next =>
    rw [press, next]
    split
    · exact .inl rfl
    · next hlt =>
      split
      · exact .inl rfl
      · next hloc => exact .inr ⟨_, rfl, .next (Nat.lt_of_not_le hlt) hloc⟩
  | prev =>
    rw [press, prev]
    split
    · exact .inl rfl
    · next hpos =>
      split
      · exact .inl rfl
      · next hloc => exact .inr ⟨_, rfl, .prev hpos hloc⟩
  | goto beat =>
    rw [press, goto]
    split
    · exact .inl rfl
    · next hloc => exact .inr ⟨_, rfl, .goto hloc⟩
  | gotoScene scene =>
    rw [press, gotoScene, Timeline.scene]
    cases hsc : h.timeline.scenes[scene]? with
    | none => exact .inl rfl
    | some sc => exact .inr ⟨_, rfl, .gotoScene hsc⟩
  | nextScene =>
    rw [press, nextScene]
    split
    · next hlt => exact .inr ⟨_, rfl, .nextScene hlt⟩
    · next hlast =>
      by_cases hend : h.beat = h.sceneBeats
      · exact .inl (if_pos hend)
      · exact .inr ⟨_, if_neg hend, .sceneEnd hlast hend⟩
  | prevScene =>
    rw [press, prevScene]
    split
    · next hpos => exact .inr ⟨_, rfl, .sceneStart hpos⟩
    · next hzero =>
      split
      · exact .inl rfl
      · next hne => exact .inr ⟨_, rfl, .prevScene hzero hne⟩

theorem moves_of_press {h h' : Playhead} {c : Control} (hpress : h.press c = (true, h')) :
    h.Moves c h' := by
  obtain hfail | ⟨other, hother, hmoves⟩ := press_cases h c
  · cases hfail.symm.trans hpress
  · obtain ⟨-, rfl⟩ := Prod.mk.inj (hother.symm.trans hpress)
    exact hmoves

theorem press_of_fail {h : Playhead} {c : Control} (hfail : (h.press c).1 = false) :
    (h.press c).2 = h := by
  obtain hkept | ⟨h', hpress, -⟩ := press_cases h c
  · rw [hkept]
  · rw [hpress] at hfail
    cases hfail

end Playhead

def Timeline.LoadFits (t : Timeline) (scene beat : Nat) : Prop :=
  ∀ sc ∈ t.scenes[scene]?, ∀ l ∈ sc.lanes, Track.SeekFits l.routine.motions l.start beat

instance (t : Timeline) (scene beat : Nat) : Decidable (t.LoadFits scene beat) :=
  inferInstanceAs (Decidable (∀ sc ∈ t.scenes[scene]?, ∀ l ∈ sc.lanes, _))

/-- Every arc is entered where it begins. -/
def Timeline.ArcsMet (t : Timeline) : Prop :=
  ∀ sc ∈ t.scenes, ∀ l ∈ sc.lanes, ∀ q ∈ Motion.starts l.routine.motions l.start, q.2.Entered q.1

instance (t : Timeline) : Decidable t.ArcsMet :=
  inferInstanceAs (Decidable (∀ sc ∈ t.scenes, ∀ l ∈ sc.lanes, ∀ q ∈ Motion.starts .., _))

namespace Playhead

def StepFits (h : Playhead) (step : Track → Prop) (beat : Nat) : Prop :=
  ∀ q ∈ (h.timeline.locate beat).toOption,
    if q.1 = h.scene then ∀ t ∈ h.tracks, step t else h.timeline.LoadFits q.1 q.2

instance (h : Playhead) (step : Track → Prop) [DecidablePred step] (beat : Nat) :
    Decidable (h.StepFits step beat) :=
  inferInstanceAs (Decidable (∀ q ∈ Except.toOption _, ite ..))

def PressFits (h : Playhead) : Control → Prop
  | .next => h.StepFits Track.NextFits (h.globalBeat + 1)
  | .prev => h.globalBeat ≠ 0 → h.StepFits Track.PrevFits (h.globalBeat - 1)
  | .goto beat => ∀ q ∈ (h.timeline.locate beat).toOption, h.timeline.LoadFits q.1 q.2
  | .gotoScene scene => h.timeline.LoadFits scene 0
  | .nextScene =>
    if h.scene + 1 < h.timeline.scenes.length then h.timeline.LoadFits (h.scene + 1) 0
    else h.beat ≠ h.sceneBeats → h.timeline.LoadFits h.scene h.sceneBeats
  | .prevScene =>
    if 0 < h.beat then h.timeline.LoadFits h.scene 0
    else h.scene ≠ 0 → h.timeline.LoadFits (h.scene - 1) 0

instance (h : Playhead) : (c : Control) → Decidable (h.PressFits c)
  | .next => inferInstanceAs (Decidable (h.StepFits ..))
  | .prev => inferInstanceAs (Decidable (_ → h.StepFits ..))
  | .goto _ => inferInstanceAs (Decidable (∀ q ∈ Except.toOption _, h.timeline.LoadFits ..))
  | .gotoScene _ => inferInstanceAs (Decidable (h.timeline.LoadFits ..))
  | .nextScene => inferInstanceAs (Decidable (ite ..))
  | .prevScene => inferInstanceAs (Decidable (ite ..))

def PressAllFits : Playhead → List Control → Prop
  | _, [] => True
  | h, c :: cs => h.PressFits c ∧ PressAllFits (h.press c).2 cs

instance decidablePressAllFits :
    (h : Playhead) → (cs : List Control) → Decidable (h.PressAllFits cs)
  | _, [] => .isTrue trivial
  | h, c :: cs =>
    have := decidablePressAllFits (h.press c).2 cs
    inferInstanceAs (Decidable (_ ∧ _))

/-- No sum on the way from the first beat saturates. -/
def RunFits (t : Timeline) (cs : List Control) : Prop :=
  (∀ q ∈ (t.locate 0).toOption, t.LoadFits q.1 q.2) ∧ (start t).PressAllFits cs

instance (t : Timeline) (cs : List Control) : Decidable (RunFits t cs) :=
  inferInstanceAs (Decidable (_ ∧ _))

/-! ## Within a scene -/

structure InScene (h : Playhead) (sc : Scene) : Prop where
  scene : h.timeline.scenes[h.scene]? = some sc
  beat : h.beat ≤ sc.beats
  tracks : h.tracks = sc.lanes.map fun l => .seek l.routine.motions l.start h.beat
  fits : ∀ l ∈ sc.lanes, Track.SeekFits l.routine.motions l.start h.beat

end Playhead

/-- The lanes of a scene take its beats, and can be walked on and back. -/
structure Scene.Playable (sc : Scene) : Prop where
  reversible : ∀ l ∈ sc.lanes, Motion.Reversible l.routine.motions l.start
  beats : ∀ l ∈ sc.lanes, sumOf Motion.beats l.routine.motions = sc.beats

namespace Playhead

variable {h h' : Playhead} {sc : Scene} {i k : Nat}

theorem load_of_scene (hsc : h.timeline.scenes[i]? = some sc) (k : Nat) : h.load i k =
    { h with
      scene := i
      beat := min k sc.beats
      tracks := sc.lanes.map fun l => .seek l.routine.motions l.start k } := by
  rw [load, hsc]

theorem inScene_load (hsc : h.timeline.scenes[i]? = some sc) (hk : k ≤ sc.beats)
    (hfits : h.timeline.LoadFits i k) : (h.load i k).InScene sc := by
  rw [load_of_scene hsc, Nat.min_eq_left hk]
  exact ⟨hsc, hk, rfl, hfits sc hsc⟩

theorem InScene.globalBeat_eq (hs : h.InScene sc) :
    h.globalBeat = h.timeline.beatsBefore h.scene + h.beat := by
  rw [globalBeat, Timeline.sceneStart?_eq hs.scene]
  rfl

theorem InScene.mem_tracks (hs : h.InScene sc) {l : Lane} (hl : l ∈ sc.lanes) :
    Track.seek l.routine.motions l.start h.beat ∈ h.tracks := by
  rw [hs.tracks]
  exact List.mem_map_of_mem hl

theorem InScene.next (hs : h.InScene sc) (hsc : sc.Playable) (hk : h.beat + 1 ≤ sc.beats)
    (hfits : ∀ t ∈ h.tracks, t.NextFits) :
    InScene { h with beat := h.beat + 1, tracks := h.tracks.map Track.next } sc where
  scene := hs.scene
  beat := hk
  tracks := by
    simp only [hs.tracks, List.map_map]
    refine List.map_congr_left fun l hl => ?_
    have hrev := hsc.reversible l hl
    exact Track.next_seekFrom hrev.laid (fun q hq _ => hrev.entered q hq) [] h.beat
  fits l hl := (hs.fits l hl).on (hsc.reversible l hl).laid (hfits _ (hs.mem_tracks hl))

theorem InScene.prev (hs : h.InScene sc) (hsc : sc.Playable) (hk : h.beat = k + 1)
    (hfits : ∀ t ∈ h.tracks, t.PrevFits) :
    InScene { h with beat := k, tracks := h.tracks.map Track.prev } sc := by
  have hle := hs.beat
  have htracks := hs.tracks
  rw [hk] at hle htracks
  refine ⟨hs.scene, Nat.le_of_succ_le hle, ?_, ?_⟩
  · simp only [htracks, List.map_map]
    refine List.map_congr_left fun l hl => ?_
    have hseek := hs.fits l hl
    have hback := hfits _ (hs.mem_tracks hl)
    rw [hk] at hseek hback
    exact Track.prev_seekFrom (hsc.reversible l hl) (hsc.beats l hl ▸ hle) hseek hback
  · intro l hl
    exact (hs.fits l hl).mono (hsc.reversible l hl).laid (hk ▸ Nat.le_succ k)

def Kept (t : Timeline) (h : Playhead) : Prop :=
  h.timeline = t ∧ ((t.scenes = [] ∧ h.tracks = []) ∨ ∃ sc, h.InScene sc)

variable {t : Timeline}

theorem kept_load (ht : h.timeline = t) (hsc : t.scenes[i]? = some sc) (hk : k ≤ sc.beats)
    (hfits : t.LoadFits i k) : (h.load i k).Kept t := by
  subst ht
  have hin := inScene_load hsc hk hfits
  rw [load_of_scene hsc] at hin ⊢
  exact ⟨rfl, .inr ⟨sc, hin⟩⟩

theorem kept_load_of_locate (ht : h.timeline = t) {beat : Nat} (hloc : t.locate beat = .ok (i, k))
    (hfits : t.LoadFits i k) : (h.load i k).Kept t := by
  obtain ⟨-, sc, hsc, hk⟩ := Timeline.locate_ok hloc
  exact kept_load ht hsc hk hfits

theorem load_of_empty (ht : h.timeline.scenes = []) : h.load i k = h := by simp [load, ht]

theorem press_of_empty (ht : h.timeline.scenes = []) (c : Control) : (h.press c).2 = h := by
  obtain hfail | ⟨h', hpress, hmoves⟩ := press_cases h c
  · rw [hfail]
  rw [hpress]
  have hloc := Timeline.locate_of_empty ht
  cases hmoves with
  | next _ hthere => cases (hloc _).symm.trans hthere
  | prev _ hthere => cases (hloc _).symm.trans hthere
  | goto hthere => cases (hloc _).symm.trans hthere
  | gotoScene | nextScene | sceneEnd | sceneStart | prevScene => exact load_of_empty ht

theorem InScene.locate_here (hs : h.InScene sc) {beat : Nat}
    (hloc : h.timeline.locate beat = .ok (h.scene, k)) :
    h.timeline.beatsBefore h.scene + k = beat ∧ k ≤ sc.beats := by
  obtain ⟨hsum, sc', hsc, hk⟩ := Timeline.locate_ok hloc
  obtain rfl := Option.some.inj (hs.scene.symm.trans hsc)
  exact ⟨hsum, hk⟩

theorem kept_moveTo (sc : Scene) {beat : Nat} {fits : Track → Prop} {move : Track → Track}
    (ht : h.timeline = t) (hloc : h.timeline.locate beat = .ok (i, k))
    (hfits : h.StepFits fits beat)
    (hmove : i = h.scene → (∀ t ∈ h.tracks, fits t) →
      InScene { h with beat := k, tracks := h.tracks.map move } sc) :
    (h.moveTo move i k).Kept t := by
  have hfits := hfits (i, k) (by rw [hloc]; rfl)
  rw [moveTo]
  split
  · next hi =>
    rw [if_pos hi] at hfits
    exact ⟨ht, .inr ⟨sc, hmove hi hfits⟩⟩
  · next hi =>
    rw [if_neg hi] at hfits
    exact kept_load_of_locate ht (ht ▸ hloc) (ht ▸ hfits)

theorem InScene.kept (hs : h.InScene sc) : h.Kept h.timeline := ⟨rfl, .inr ⟨sc, hs⟩⟩

theorem InScene.kept_next (hs : h.InScene sc) (hsc : sc.Playable) (hfits : h.PressFits .next)
    (hloc : h.timeline.locate (h.globalBeat + 1) = .ok (i, k)) :
    (h.moveTo Track.next i k).Kept h.timeline := by
  refine kept_moveTo sc rfl hloc hfits ?_
  rintro rfl hsteps
  obtain ⟨hsum, hk⟩ := hs.locate_here hloc
  have hbeat := hs.globalBeat_eq
  obtain rfl : k = h.beat + 1 := by omega
  exact hs.next hsc hk hsteps

theorem InScene.kept_prev (hs : h.InScene sc) (hsc : sc.Playable) (hfits : h.PressFits .prev)
    (hpos : h.globalBeat ≠ 0) (hloc : h.timeline.locate (h.globalBeat - 1) = .ok (i, k)) :
    (h.moveTo Track.prev i k).Kept h.timeline := by
  refine kept_moveTo sc rfl hloc (hfits hpos) ?_
  rintro rfl hsteps
  obtain ⟨hsum, -⟩ := hs.locate_here hloc
  have hbeat := hs.globalBeat_eq
  have hk : h.beat = k + 1 := by omega
  exact hs.prev hsc hk hsteps

theorem InScene.kept_moves (hs : h.InScene sc) (hplay : ∀ sc ∈ h.timeline.scenes, sc.Playable)
    {c : Control} (hfits : h.PressFits c) (hmoves : h.Moves c h') : h'.Kept h.timeline := by
  have hsc := hplay sc (List.mem_of_getElem? hs.scene)
  cases hmoves with
  | next _ hloc => exact hs.kept_next hsc hfits hloc
  | prev hpos hloc => exact hs.kept_prev hsc hfits hpos hloc
  | goto hloc => exact kept_load_of_locate rfl hloc (hfits _ (by rw [hloc]; rfl))
  | gotoScene hscene => exact kept_load rfl hscene (Nat.zero_le _) hfits
  | nextScene hlt =>
    rw [PressFits, if_pos hlt] at hfits
    exact kept_load rfl (List.getElem?_eq_getElem hlt) (Nat.zero_le _) hfits
  | sceneEnd hlast hne =>
    rw [PressFits, if_neg hlast] at hfits
    have hbeats : h.sceneBeats = sc.beats := by simp [sceneBeats, hs.scene]
    exact kept_load rfl hs.scene (Nat.le_of_eq hbeats) (hfits hne)
  | sceneStart hpos =>
    rw [PressFits, if_pos hpos] at hfits
    exact kept_load rfl hs.scene (Nat.zero_le _) hfits
  | prevScene hzero hne =>
    rw [PressFits, if_neg hzero] at hfits
    have hlt := (List.getElem?_eq_some_iff.1 hs.scene).1
    have hbefore : h.scene - 1 < h.timeline.scenes.length := by omega
    exact kept_load rfl (List.getElem?_eq_getElem hbefore) (Nat.zero_le _) (hfits hne)

theorem Kept.press (hkept : h.Kept t) (hplay : ∀ sc ∈ t.scenes, sc.Playable) {c : Control}
    (hfits : h.PressFits c) : (h.press c).2.Kept t := by
  obtain ⟨rfl, ⟨hempty, htracks⟩ | ⟨sc, hs⟩⟩ := hkept
  · rw [press_of_empty hempty]
    exact ⟨rfl, .inl ⟨hempty, htracks⟩⟩
  · obtain hfail | ⟨h', hpress, hmoves⟩ := press_cases h c
    · rw [hfail]
      exact hs.kept
    · rw [hpress]
      exact hs.kept_moves hplay hfits hmoves

theorem Kept.pressAll (hkept : h.Kept t) (hplay : ∀ sc ∈ t.scenes, sc.Playable)
    {cs : List Control} (hfits : h.PressAllFits cs) : (h.pressAll cs).Kept t := by
  induction cs generalizing h with
  | nil => exact hkept
  | cons c cs ih => exact ih (hkept.press hplay hfits.1) hfits.2

theorem kept_start (hfits : ∀ q ∈ (t.locate 0).toOption, t.LoadFits q.1 q.2) :
    (start t).Kept t := by
  by_cases hempty : t.scenes = []
  · rw [start, Timeline.locate_of_empty hempty]
    exact ⟨rfl, .inl ⟨hempty, rfl⟩⟩
  · obtain ⟨q, hloc⟩ := Timeline.locate_of_le hempty (Nat.zero_le _)
    rw [start, hloc]
    exact kept_load_of_locate rfl hloc (hfits q (by rw [hloc]; rfl))

end Playhead

namespace Timeline

variable {s : Show} {o : Settings} {t : Timeline}

theorem build_onBudget (h : build s o = .ok t) {sc : Scene} (hsc : sc ∈ t.scenes) {l : Lane}
    (hl : l ∈ sc.lanes) : l.routine.OnBudget sc.beats := by
  obtain ⟨k, hk⟩ := List.mem_iff_getElem?.1 hsc
  obtain ⟨p, hp⟩ := List.mem_iff_getElem?.1 hl
  have hlt : p < t.size := build_length_lanes h hk ▸ (List.getElem?_eq_some_iff.1 hp).1
  obtain ⟨turn, hturn⟩ := build_turn h hk hlt
  obtain ⟨-, hbeats, hlane⟩ := build_lane h hk hlt hturn
  obtain rfl := Option.some.inj (hlane.symm.trans hp)
  have hsize : turn.beats < UInt32.size := by
    obtain ⟨i, sheet, -, rfl⟩ := build_performed h hk
    exact hbeats ▸ sheet.beats.toNat_lt
  exact hbeats ▸ turn.onBudget hsize .empty

theorem build_playable (h : build s o = .ok t) (harcs : t.ArcsMet) {sc : Scene}
    (hsc : sc ∈ t.scenes) : sc.Playable where
  reversible l hl :=
    have hbudget := build_onBudget h hsc hl
    ⟨hbudget.laid, hbudget.cut_pos, harcs sc hsc l hl⟩
  beats _ hl := (build_onBudget h hsc hl).total

end Timeline

namespace Playhead

/-- Whatever controls are pressed, every track is the one that its lane gives when it is set up at
the beat that is reached, and the places are those of random access wherever the beat of the whole
show is located in the scene under way. -/
theorem path_independent {s : Show} {o : Settings} {t : Timeline}
    (hbuild : Timeline.build s o = .ok t) (harcs : t.ArcsMet) (cs : List Control)
    (hfits : RunFits t cs) :
    let h := (start t).pressAll cs
    ((t.scenes = [] ∧ h.tracks = []) ∨ ∃ sc, t.scenes[h.scene]? = some sc ∧ h.beat ≤ sc.beats ∧
      h.tracks = sc.lanes.map fun l => .seek l.routine.motions l.start h.beat) ∧
    (t.locate h.globalBeat = .ok (h.scene, h.beat) →
      t.positions h.globalBeat = .ok h.positions) := by
  intro h
  have hplay (sc) (hsc : sc ∈ t.scenes) := Timeline.build_playable hbuild harcs hsc
  obtain ⟨htimeline, hkept⟩ : h.Kept t := (kept_start hfits.1).pressAll hplay hfits.2
  obtain ⟨hempty, htracks⟩ | ⟨sc, hs⟩ := hkept
  · refine ⟨.inl ⟨hempty, htracks⟩, fun hloc => ?_⟩
    rw [Timeline.locate_of_empty hempty] at hloc
    cases hloc
  · have hsc := hs.scene
    rw [htimeline] at hsc
    refine ⟨.inr ⟨sc, hsc, hs.beat, hs.tracks⟩, fun hloc => ?_⟩
    rw [Timeline.positions_of_locate hloc hsc (Timeline.build_length_lanes hbuild hsc), positions,
      hs.tracks, List.map_map]
    congr 1
    refine List.map_congr_left fun l hl => ?_
    have hlaid := (hplay sc (List.mem_of_getElem? hsc)).reversible l hl |>.laid
    exact (Track.pos_seekFrom hlaid [] l.start h.beat).symm

theorem path_independent_sample :
    let h := (start .sample).pressAll [.next, .next, .next, .next, .prev, .prev, .prev, .goto 99,
      .nextScene, .prev, .prev, .gotoScene 7, .gotoScene 1, .next, .prev, .prevScene, .next]
    Timeline.sample.positions h.globalBeat = .ok h.positions := by
  intro h
  have hlocate : (Timeline.sample.locate h.globalBeat).toOption = some (h.scene, h.beat) := by
    decide +kernel
  exact (path_independent Timeline.build_sample (by decide +kernel) _ (by decide +kernel)).2
    (Timeline.eq_ok_of_toOption hlocate)

end Playhead
end FieldShow
