import FieldShow.Proofs.Boundary
import FieldShow.Proofs.Located

/-!
Jumps from scene to scene. They go to the scene that is asked for, even if it takes no time and the
beat belongs to a later one. Where the scene has a beat or is the last, the marchers are then seen
where random access finds them; where it is over at once, they are seen where it leads.
-/

namespace FieldShow

theorem Motion.positionAfter_zero {ms : List Motion} (h : ∀ m ∈ ms, m.beats = 0) (p : Vec) :
    positionAfter ms p 0 = lead ms p := by
  induction ms generalizing p with
  | nil => rfl
  | cons m ms ih =>
    obtain ⟨hm, hms⟩ := List.forall_mem_cons.1 h
    rw [positionAfter, if_neg (by omega), Nat.zero_sub, ih hms]
    rfl

namespace Playhead

variable {t : Timeline} {h h' : Playhead} {c : Control} {beat i k : Nat}

def Control.IsJump : Control → Prop
  | .gotoScene _ | .nextScene | .prevScene => True
  | _ => False

/-- At a beat of a scene, or at the very beginning if there are no scenes. -/
structure Within (t : Timeline) (h : Playhead) : Prop where
  timeline : h.timeline = t
  place : (t.scenes = [] ∧ h.scene = 0 ∧ h.beat = 0) ∨
    ∃ sc, t.scenes[h.scene]? = some sc ∧ h.beat ≤ sc.beats

theorem located_moveTo (hloc : h.timeline.locate beat = .ok (i, k)) (move : Track → Track) :
    (h.moveTo move i k).timeline = h.timeline ∧
      h.timeline.locate beat = .ok ((h.moveTo move i k).scene, (h.moveTo move i k).beat) := by
  rw [moveTo]
  split
  · next hi => exact ⟨rfl, hi ▸ hloc⟩
  · have hat := at_load (h := h) rfl hloc
    exact ⟨hat.timeline, hat.located⟩

theorem located_of_moves (hc : ¬c.IsJump) (hmoves : h.Moves c h') :
    h'.timeline = h.timeline ∧ ∃ beat, h.timeline.locate beat = .ok (h'.scene, h'.beat) := by
  cases hmoves with
  | next _ hloc =>
    obtain ⟨htimeline, hlocated⟩ := located_moveTo hloc Track.next
    exact ⟨htimeline, _, hlocated⟩
  | prev _ hloc =>
    obtain ⟨htimeline, hlocated⟩ := located_moveTo hloc Track.prev
    exact ⟨htimeline, _, hlocated⟩
  | goto hloc =>
    have hat := at_load (h := h) rfl hloc
    exact ⟨hat.timeline, _, hat.located⟩
  | gotoScene | nextScene | sceneEnd | sceneStart | prevScene => exact absurd trivial hc

theorem jump_cases (hin : h.Within t) (hc : c.IsJump) (hmoves : h.Moves c h') :
    ∃ i k sc, t.scenes[i]? = some sc ∧ h' = h.load i k ∧
      (k = 0 ∨ (i + 1 = t.scenes.length ∧ k = sc.beats)) := by
  obtain ⟨rfl, hplace⟩ := hin
  -- the first beat of a scene that there is
  have hfirst {i : Nat} (hi : i < h.timeline.scenes.length) :
      ∃ j k sc, h.timeline.scenes[j]? = some sc ∧ h.load i 0 = h.load j k ∧
        (k = 0 ∨ (j + 1 = h.timeline.scenes.length ∧ k = sc.beats)) :=
    ⟨i, 0, _, List.getElem?_eq_getElem hi, rfl, .inl rfl⟩
  cases hmoves with
  | next | prev | goto => exact hc.elim
  | gotoScene hsc => exact hfirst (List.getElem?_eq_some_iff.1 hsc).1
  | nextScene hlt => exact hfirst hlt
  | sceneEnd hlast hne =>
    obtain ⟨hempty, -, hbeat⟩ | ⟨sc, hsc, -⟩ := hplace
    · exact absurd hbeat (by simpa [sceneBeats, hempty] using hne)
    · have hlt := (List.getElem?_eq_some_iff.1 hsc).1
      have hbeats : h.sceneBeats = sc.beats := by simp [sceneBeats, hsc]
      exact ⟨h.scene, h.sceneBeats, sc, hsc, rfl, .inr ⟨by omega, hbeats⟩⟩
  | sceneStart hpos =>
    obtain ⟨-, -, hbeat⟩ | ⟨sc, hsc, -⟩ := hplace
    · exact absurd hbeat (Nat.ne_of_gt hpos)
    · exact hfirst (List.getElem?_eq_some_iff.1 hsc).1
  | prevScene _ hne =>
    obtain ⟨-, hscene, -⟩ | ⟨sc, hsc, -⟩ := hplace
    · exact absurd hscene hne
    · exact hfirst (Nat.lt_of_le_of_lt (Nat.sub_le ..) (List.getElem?_eq_some_iff.1 hsc).1)

theorem within_load (ht : h.timeline = t) {sc : Scene} (hsc : t.scenes[i]? = some sc) (k : Nat) :
    (h.load i k).Within t := by
  subst ht
  rw [load_of_scene hsc]
  exact ⟨rfl, .inr ⟨sc, hsc, Nat.min_le_right ..⟩⟩

theorem within_of_located (ht : h.timeline = t) (hloc : t.locate beat = .ok (h.scene, h.beat)) :
    h.Within t :=
  ⟨ht, .inr (Timeline.locate_ok hloc).2⟩

theorem within_start (t : Timeline) : (start t).Within t := by
  by_cases hempty : t.scenes = []
  · rw [start, Timeline.locate_of_empty hempty]
    exact ⟨rfl, .inl ⟨hempty, rfl, rfl⟩⟩
  · have hat := at_start hempty
    exact within_of_located hat.timeline hat.located

theorem Within.press (hin : h.Within t) (c : Control) : (h.press c).2.Within t := by
  obtain hfail | ⟨h', hpress, hmoves⟩ := press_cases h c
  · rwa [hfail]
  rw [hpress]
  by_cases hc : c.IsJump
  · obtain ⟨i, k, sc, hsc, rfl, -⟩ := jump_cases hin hc hmoves
    exact within_load hin.timeline hsc k
  · obtain ⟨htimeline, beat, hloc⟩ := located_of_moves hc hmoves
    rw [hin.timeline] at htimeline hloc
    exact within_of_located htimeline hloc

theorem Within.pressAll (hin : h.Within t) (cs : List Control) : (h.pressAll cs).Within t := by
  induction cs generalizing h with
  | nil => exact hin
  | cons c cs ih => exact ih (hin.press c)

end Playhead

/-! ## Scenes that are over at once -/

namespace Timeline

variable {s : Show} {o : Settings} {t : Timeline} {k : Nat}

theorem starts_after_blink (h : build s o = .ok t) {here there : Scene}
    (hhere : t.scenes[k]? = some here) (hthere : t.scenes[k + 1]? = some there)
    (hbeats : here.beats = 0)
    (hfits : ∀ p < t.size, ∀ reached ∈ s.reached? p k, ∀ l ∈ there.lanes[p]?,
      l.start.SubFits reached) :
    (here.lanes.map fun l => Motion.positionAfter l.routine.motions l.start 0) =
      there.lanes.map Lane.start := by
  have hlength : here.lanes.length = there.lanes.length :=
    (build_length_lanes h hhere).trans (build_length_lanes h hthere).symm
  have hsize : here.lanes.length = t.size := build_length_lanes h hhere
  refine List.ext_getElem? fun p => ?_
  by_cases hp : p < t.size
  case neg =>
    rw [List.getElem?_eq_none (by rw [List.length_map]; omega),
      List.getElem?_eq_none (by rw [List.length_map]; omega)]
  obtain ⟨turn, hturn⟩ := build_turn h hhere hp
  obtain ⟨turn', hturn'⟩ := build_turn h hthere hp
  have hlane := (build_lane h hhere hp hturn).2.2
  have hnext := (build_lane h hthere hp hturn').2.2
  have hcue : turn.cue.next = some turn'.cue.home.position := by
    simp [build_next h hhere hp hturn, hthere, hnext]
  have hzero : ∀ m ∈ (turn.outcome .empty).routine.motions, m.beats = 0 := by
    have hbudget := build_onBudget h (List.mem_of_getElem? hhere) (List.mem_of_getElem? hlane)
    exact (sumOf_eq_zero_iff _).1 (hbudget.total.trans hbeats)
  have hpos : s.reached? p k = some (turn.perform .empty).pos := by
    rw [Show.reached?, hturn]
    rfl
  have hreached := hfits p hp _ hpos _ hnext
  have hlead := Progress.lead_finish (Progress.replays_perform turn) hcue hreached
  rw [List.getElem?_map, List.getElem?_map, hlane, hnext, Option.map_some, Option.map_some,
    Motion.positionAfter_zero hzero]
  exact congrArg some hlead

end Timeline

namespace Playhead

variable {s : Show} {o : Settings} {t : Timeline} {h h' : Playhead} {c : Control} {sc : Scene}
  {i : Nat}

theorem positions_load (hbuild : Timeline.build s o = .ok t) (ht : h.timeline = t)
    (hsc : t.scenes[i]? = some sc) (k : Nat) : (h.load i k).positions =
      sc.lanes.map fun l => Motion.positionAfter l.routine.motions l.start k := by
  subst ht
  simp only [load_of_scene hsc, positions, List.map_map]
  refine List.map_congr_left fun l hl => ?_
  have hlaid := (Timeline.build_onBudget hbuild (List.mem_of_getElem? hsc) hl).laid
  exact Track.pos_seekFrom hlaid [] l.start k

theorem positions_load_located (hbuild : Timeline.build s o = .ok t) (ht : h.timeline = t)
    (hsc : t.scenes[i]? = some sc) {k : Nat}
    (hk : k < sc.beats ∨ (i + 1 = t.scenes.length ∧ k ≤ sc.beats)) :
    t.positions (h.load i k).globalBeat = .ok (h.load i k).positions := by
  have hat := at_load ht (Timeline.locate_of_scene hsc hk)
  rw [hat.globalBeat_eq]
  exact hat.positions_eq hbuild

theorem globalBeat_load_blink (ht : h.timeline = t) (hsc : t.scenes[i]? = some sc)
    (hbeats : sc.beats = 0) : (h.load i 0).globalBeat = t.beatsBefore (i + 1) := by
  subst ht
  -- no beat lies between the beginning of this scene and that of the next one
  rw [load_of_scene hsc, globalBeat, Timeline.sceneStart?_eq hsc, Timeline.beatsBefore_succ hsc,
    hbeats, Nat.zero_min]
  rfl

/-- After a jump the marchers are seen where random access finds them on that beat, if the scene
has a beat or is the last one. In a scene that is over at once and is not the last, they are seen
where the next one starts. There the beat is the first one of a later scene, and random access
finds the marchers where the motions that take no time lead from its starts. -/
theorem jump_positions (hbuild : Timeline.build s o = .ok t) (cs : List Control) (hc : c.IsJump)
    (hpress : ((start t).pressAll cs).press c = (true, h')) :
    ∃ here, t.scenes[h'.scene]? = some here ∧
      (0 < here.beats ∨ h'.scene + 1 = t.scenes.length →
        t.positions h'.globalBeat = .ok h'.positions) ∧
      (here.beats = 0 → ∀ next, t.scenes[h'.scene + 1]? = some next →
        (∀ p < t.size, ∀ reached ∈ s.reached? p h'.scene, ∀ l ∈ next.lanes[p]?,
          l.start.SubFits reached) →
        h'.positions = next.lanes.map Lane.start ∧
        ∃ j there, t.locate h'.globalBeat = .ok (j, 0) ∧ h'.scene < j ∧
          t.scenes[j]? = some there ∧ t.positions h'.globalBeat =
            .ok (there.lanes.map fun l => Motion.positionAfter l.routine.motions l.start 0)) := by
  have hin := (within_start t).pressAll cs
  have ht := hin.timeline
  obtain ⟨i, k, here, hhere, rfl, hk⟩ := jump_cases hin hc (moves_of_press hpress)
  have hscene : (((start t).pressAll cs).load i k).scene = i := by
    rw [load_of_scene (ht ▸ hhere)]
  rw [hscene]
  refine ⟨here, hhere, fun hstays => ?_, fun hbeats next hnext hfits => ⟨?_, ?_⟩⟩
  · -- the beat is located in the scene to which the jump leads
    refine positions_load_located hbuild ht hhere ?_
    obtain rfl | ⟨hlast, rfl⟩ := hk
    · exact hstays.imp_right fun hlast => ⟨hlast, Nat.zero_le _⟩
    · exact .inr ⟨hlast, Nat.le_refl _⟩
  all_goals obtain rfl : k = 0 := hk.elim id fun hend => hend.2.trans hbeats
  · exact (positions_load hbuild ht hhere 0).trans
      (Timeline.starts_after_blink hbuild hhere hnext hbeats hfits)
  · obtain ⟨j, there, hloc, hlt, hthere⟩ := Timeline.locate_beatsBefore hnext
    have hlength := Timeline.build_length_lanes hbuild hthere
    rw [globalBeat_load_blink ht hhere hbeats]
    exact ⟨j, there, hloc, hlt, hthere, Timeline.positions_of_locate hloc hthere hlength⟩

theorem jump_positions_hurried :
    (∃ h', ((start .hurried).pressAll [.next, .next]).press .prevScene = (true, h') ∧
      Timeline.hurried.positions h'.globalBeat = .ok h'.positions) ∧
    ∃ h' next there, (start .hurried).press (.gotoScene 0) = (true, h') ∧
      Timeline.hurried.scenes[1]? = some next ∧ h'.positions = next.lanes.map Lane.start ∧
      there ∈ Timeline.hurried.scenes ∧ Timeline.hurried.positions h'.globalBeat =
        .ok (there.lanes.map fun l => Motion.positionAfter l.routine.motions l.start 0) := by
  have hprev : Control.IsJump .prevScene := trivial
  have hgoto : Control.IsJump (.gotoScene 0) := trivial
  constructor
  · have hmoved : (((start .hurried).pressAll [.next, .next]).press .prevScene).1 = true ∧
        (((start .hurried).pressAll [.next, .next]).press .prevScene).2.scene + 1 =
          Timeline.hurried.scenes.length := by decide +kernel
    obtain ⟨h', hpress⟩ : ∃ h', ((start .hurried).pressAll [.next, .next]).press .prevScene =
        (true, h') := ⟨_, Prod.ext hmoved.1 rfl⟩
    rw [hpress] at hmoved
    obtain ⟨here, -, hlocated, -⟩ :=
      jump_positions Timeline.build_hurried [.next, .next] hprev hpress
    exact ⟨h', hpress, hlocated (.inr hmoved.2)⟩
  · have hmoved : ((start .hurried).press (.gotoScene 0)).1 = true ∧
        ((start .hurried).press (.gotoScene 0)).2.scene = 0 := by decide +kernel
    have hbeats : ∀ here ∈ Timeline.hurried.scenes[0]?, here.beats = 0 := by decide +kernel
    obtain ⟨next, hnext⟩ := Option.isSome_iff_exists.1 (show
      (Timeline.hurried.scenes[1]?).isSome by decide +kernel)
    have hfits : ∀ next ∈ Timeline.hurried.scenes[1]?, ∀ p < Timeline.hurried.size,
        ∀ reached ∈ Show.hurried.reached? p 0, ∀ l ∈ next.lanes[p]?,
          l.start.SubFits reached := by decide +kernel
    obtain ⟨h', hpress⟩ : ∃ h', (start .hurried).press (.gotoScene 0) = (true, h') :=
      ⟨_, Prod.ext hmoved.1 rfl⟩
    rw [hpress] at hmoved
    obtain ⟨here, hhere, -, hblink⟩ := jump_positions Timeline.build_hurried [] hgoto hpress
    rw [hmoved.2] at hhere hblink
    obtain ⟨hstarts, j, there, -, -, hthere, hfound⟩ :=
      hblink (hbeats here hhere) next hnext (hfits next hnext)
    exact ⟨h', next, there, hpress, hnext, hstarts, List.mem_of_getElem? hthere, hfound⟩

/-- The first of two scenes that take no time can be jumped to, yet no beat is located in it. -/
theorem jump_into_blink : Timeline.build .hurried {} = .ok .hurried ∧
    Timeline.hurried.ArcsMet ∧ RunFits .hurried [.gotoScene 0] ∧ Timeline.hurried.LoadFits 2 0 ∧
    ∃ h', (start .hurried).press (.gotoScene 0) = (true, h') ∧
      h'.positions = [⟨160, 0⟩, ⟨320, 0⟩] ∧
      Timeline.hurried.positions h'.globalBeat = .ok [⟨320, 0⟩, ⟨384, 0⟩] ∧
      Timeline.hurried.positions h'.globalBeat ≠ .ok h'.positions := by
  refine ⟨Timeline.build_hurried, by decide +kernel, by decide +kernel, by decide +kernel, ?_⟩
  have hseen : ((start .hurried).press (.gotoScene 0)).1 = true ∧
      ((start .hurried).press (.gotoScene 0)).2.positions = [⟨160, 0⟩, ⟨320, 0⟩] ∧
      (Timeline.hurried.positions
        ((start .hurried).press (.gotoScene 0)).2.globalBeat).toOption =
          some [⟨320, 0⟩, ⟨384, 0⟩] := by decide +kernel
  obtain ⟨h', hpress⟩ : ∃ h', (start .hurried).press (.gotoScene 0) = (true, h') :=
    ⟨_, Prod.ext hseen.1 rfl⟩
  rw [hpress] at hseen
  obtain ⟨-, hshown, hthere⟩ := hseen
  have hbeat := Timeline.eq_ok_of_toOption hthere
  refine ⟨h', hpress, hshown, hbeat, ?_⟩
  rw [hbeat, hshown, ne_eq, Except.ok.injEq]
  decide

end Playhead
end FieldShow
