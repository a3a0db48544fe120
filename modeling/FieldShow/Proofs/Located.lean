import FieldShow.Proofs.Playback

/-!
A playhead in the scene in which its beat is located, with the tracks that are set up there. It
shows what random access shows, and so it does one beat on, even where sums saturate.
-/

namespace FieldShow

def Timeline.TimedArcsMet (t : Timeline) : Prop :=
  ∀ sc ∈ t.scenes, ∀ l ∈ sc.lanes, ∀ q ∈ Motion.starts l.routine.motions l.start,
    0 < q.2.beats → q.2.Entered q.1

instance (t : Timeline) : Decidable t.TimedArcsMet :=
  inferInstanceAs (Decidable (∀ sc ∈ t.scenes, ∀ l ∈ sc.lanes, ∀ q ∈ Motion.starts .., _))

namespace Playhead

structure At (t : Timeline) (beat : Nat) (h : Playhead) : Prop where
  timeline : h.timeline = t
  located : t.locate beat = .ok (h.scene, h.beat)
  tracks : ∀ sc ∈ t.scenes[h.scene]?,
    h.tracks = sc.lanes.map fun l => .seek l.routine.motions l.start h.beat

variable {t : Timeline} {h : Playhead} {beat i k : Nat}

theorem at_load (ht : h.timeline = t) (hloc : t.locate beat = .ok (i, k)) :
    (h.load i k).At t beat := by
  subst ht
  obtain ⟨-, sc, hsc, hk⟩ := Timeline.locate_ok hloc
  rw [load_of_scene hsc, Nat.min_eq_left hk]
  refine ⟨rfl, hloc, fun sc' hsc' => ?_⟩
  obtain rfl := Option.some.inj (hsc.symm.trans hsc')
  rfl

theorem at_start (hne : t.scenes ≠ []) : (start t).At t 0 := by
  obtain ⟨⟨i, k⟩, hloc⟩ := Timeline.locate_of_le hne (Nat.zero_le _)
  rw [start, hloc]
  exact at_load rfl hloc

theorem At.globalBeat_eq (hat : h.At t beat) : h.globalBeat = beat := by
  obtain ⟨rfl, hloc, -⟩ := hat
  obtain ⟨hsum, sc, hsc, -⟩ := Timeline.locate_ok hloc
  rw [globalBeat, Timeline.sceneStart?_eq hsc]
  exact hsum

theorem next_of_end (hend : h.timeline.total ≤ h.globalBeat) : h.next = (false, h) := if_pos hend

theorem next_of_located (hlt : h.globalBeat < h.timeline.total)
    (hloc : h.timeline.locate (h.globalBeat + 1) = .ok (i, k)) :
    h.next = (true, h.moveTo Track.next i k) := by
  rw [next, if_neg (Nat.not_le.2 hlt), hloc]

theorem At.next (hat : h.At t beat) (hlt : beat < t.total)
    (hlaid : ∀ sc ∈ t.scenes, ∀ l ∈ sc.lanes, ∀ m ∈ l.routine.motions, m.Laid)
    (harcs : t.TimedArcsMet) : ∃ h', h.next = (true, h') ∧ h'.At t (beat + 1) := by
  obtain rfl := hat.globalBeat_eq
  obtain ⟨rfl, hloc, htracks⟩ := hat
  obtain ⟨hsum, sc, hsc, -⟩ := Timeline.locate_ok hloc
  have hne : h.timeline.scenes ≠ [] := List.ne_nil_of_mem (List.mem_of_getElem? hsc)
  obtain ⟨⟨i, k⟩, hnext⟩ := Timeline.locate_of_le hne hlt
  refine ⟨_, next_of_located hlt hnext, ?_⟩
  rw [moveTo]
  by_cases hi : i = h.scene
  · subst hi
    have hk : k = h.beat + 1 := by
      have hsum' := (Timeline.locate_ok hnext).1
      omega
    rw [if_pos rfl]
    refine ⟨rfl, hnext, fun sc' hsc' => ?_⟩
    obtain rfl := Option.some.inj (hsc.symm.trans hsc')
    have hmem := List.mem_of_getElem? hsc
    simp only [htracks sc hsc, List.map_map]
    refine List.map_congr_left fun l hl => ?_
    rw [hk]
    exact Track.next_seekFrom (hlaid sc hmem l hl) (harcs sc hmem l hl) [] h.beat
  · rw [if_neg hi]
    exact at_load rfl hnext

variable {s : Show} {o : Settings}

theorem At.positions_eq (hat : h.At t beat) (hbuild : Timeline.build s o = .ok t) :
    t.positions beat = .ok h.positions := by
  obtain ⟨rfl, hloc, htracks⟩ := hat
  obtain ⟨-, sc, hsc, -⟩ := Timeline.locate_ok hloc
  have hlength := Timeline.build_length_lanes hbuild hsc
  rw [Timeline.positions_of_locate hloc hsc hlength, positions, htracks sc hsc, List.map_map]
  congr 1
  refine List.map_congr_left fun l hl => ?_
  have hlaid := (Timeline.build_onBudget hbuild (List.mem_of_getElem? hsc) hl).laid
  exact (Track.pos_seekFrom hlaid [] l.start h.beat).symm

theorem At.clashes_eq (hat : h.At t beat) (hbuild : Timeline.build s o = .ok t) :
    t.clashes beat = .ok h.clashes := by
  have hpositions := hat.positions_eq hbuild
  simp only [Timeline.clashes, hpositions, clashes, hat.timeline, bind, Except.bind, pure,
    Except.pure]

end Playhead

/-- Two marchers on three sheets. The first two sheets take no time; on the last one the first
marcher runs into the second, who turns on the spot. -/
def Show.hurried : Show :=
  let line (x₁ x₂ : Int32) : List Placement :=
    [{ position := ⟨x₁, 0⟩ }, { position := ⟨x₂, 0⟩, symbol := .solid }]
  let crash : Book := Book.empty
    |>.insert .plain [⟨.forward (.number 4) (.constant .east), none⟩]
    |>.insert .solid [⟨.wheel (.number 90) (.number 4) .start false, none⟩]
  ⟨[⟨"blink", 0, true, line 0 160, .empty⟩, ⟨"wink", 0, true, line 160 320, .empty⟩,
    ⟨"crash", 4, true, line 320 384, crash⟩]⟩

def Timeline.hurried : Timeline := (build .hurried {}).toOption.get (by decide +kernel)

theorem Timeline.build_hurried : build .hurried {} = .ok hurried :=
  eq_ok_of_toOption (Option.some_get _).symm

end FieldShow
