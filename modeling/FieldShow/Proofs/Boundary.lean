import FieldShow.Proofs.Diagnostics
import FieldShow.Proofs.Offsets

/-!
From sheet to sheet. The place that a program keeps track of is the one that its motions lead to
when they are played, and the last of them makes up for what is missing to the next sheet, so no
marcher jumps between two scenes.
-/

namespace FieldShow

def Motion.lead (ms : List Motion) (p : Vec) : Vec := ms.foldl (fun p m => m.destination p) p

namespace Progress

variable {c : Cue} {s t : Progress} {p : Vec}

/-- The motions so far lead from a place to where the marcher is. -/
def Replays (p : Vec) (s : Progress) : Prop := Motion.lead s.motions.toList p = s.pos

theorem pos_take {m : Motion} (hm : m.Laid) (s : Progress) :
    (s.take c m).pos = m.destination s.pos := by
  rw [Motion.destination, hm.rewind]
  rfl

theorem Replays.take {m : Motion} (hs : s.Replays p) (hm : m.Laid) : (s.take c m).Replays p := by
  rw [Replays, motions_take, pos_take hm, hm.rewind, Motion.lead, List.foldl_append]
  exact congrArg m.destination hs

theorem Step.replays (h : Step c s t) (hs : s.Replays p) : t.Replays p := by
  cases h with
  | note | remember | runOut => exact hs
  | take hm => exact hs.take hm.laid
  | cut loc hm =>
    exact Replays.take (s := { s.note _ .outOfTime with overflowed := true }) hs (hm.laid.clip _)

theorem replays_perform (turn : Turn) :
    (turn.perform .empty).Replays turn.cue.home.position :=
  (turn.course .empty).keeps Step.replays rfl

theorem replays_correct (hs : s.Replays p) : (s.correct c).Replays p := by
  obtain ⟨heq, -⟩ | ⟨target, -, -, heq⟩ := s.correct_cases (c := c) <;> rw [heq]
  · exact hs
  · exact Replays.take (s := s.note c .wrongPlace) hs (Motion.fresh_line ..).laid

theorem replays_fill (hs : s.Replays p) : (s.fill c).Replays p := by
  obtain ⟨-, heq⟩ | ⟨-, heq⟩ := s.fill_cases (c := c) <;> rw [heq]
  · exact hs
  · exact Replays.take (s := s.note c .timeLeft) hs (Motion.fresh_stand ..).laid

theorem pos_correct {target : Vec} (hnext : c.next = some target) (hfits : target.SubFits s.pos) :
    (s.correct c).pos = target := by
  obtain ⟨heq, hpos⟩ | ⟨target', hnext', -, heq⟩ := s.correct_cases (c := c) <;> rw [heq]
  · exact hpos target hnext
  · obtain rfl := Option.some.inj (hnext.symm.trans hnext')
    rw [pos_take (Motion.fresh_line ..).laid, Motion.destination_line]
    exact Vec.add_sub_of_fits hfits

theorem pos_fill (s : Progress) : (s.fill c).pos = s.pos := by
  obtain ⟨-, heq⟩ | ⟨-, heq⟩ := s.fill_cases (c := c) <;> rw [heq]
  rw [pos_take (Motion.fresh_stand ..).laid, Motion.destination_stand]
  rfl

theorem lead_finish {target : Vec} (hs : s.Replays p) (hnext : c.next = some target)
    (hfits : target.SubFits s.pos) : Motion.lead (s.finish c).routine.motions p = target := by
  have : ((s.correct c).fill c).Replays p := replays_fill (replays_correct hs)
  rw [Replays, pos_fill, pos_correct hnext hfits] at this
  exact this

theorem get?_wrongPlace_finish (hs : s.Told c) (hnext : c.next = none) :
    (s.finish c).markers.get? .wrongPlace = none := by
  have hcorrect : (s.correct c).markers.get? .wrongPlace = none := by
    rw [show s.correct c = s by simp [correct, hnext]]
    exact hs.wrongPlace
  change ((s.correct c).fill c).markers.get? .wrongPlace = none
  obtain ⟨-, heq⟩ | ⟨-, heq⟩ := (s.correct c).fill_cases (c := c) <;> rw [heq]
  · exact hcorrect
  · exact (Markers.get?_register_of_ne (by decide) ..).trans hcorrect

end Progress

/-- Where the program of a sheet alone leads a marcher, before anything is made up for. -/
def Show.reached? (s : Show) (point k : Nat) : Option Vec :=
  (s.turn? point k).map fun turn => (turn.perform .empty).pos

namespace Timeline

open Progress

/-- Every lane leads to where the marcher's next one starts, and the marchers whose program alone
does not are those marked with a wrong place. -/
theorem no_jump {s : Show} {o : Settings} {t : Timeline} (h : build s o = .ok t) :
    (∀ k here there, t.scenes[k]? = some here → t.scenes[k + 1]? = some there →
      ∀ p < t.size, ∃ lane next reached, here.lanes[p]? = some lane ∧
        there.lanes[p]? = some next ∧ s.reached? p k = some reached ∧
        (next.start.SubFits reached →
          Motion.lead lane.routine.motions lane.start = next.start) ∧
        (p ∈ here.markers.points .wrongPlace ↔ reached ≠ next.start)) ∧
    ∀ last, t.scenes.getLast? = some last → last.markers.get? .wrongPlace = none := by
  constructor
  · intro k here there hhere hthere p hp
    obtain ⟨turn, hturn⟩ := build_turn h hhere hp
    obtain ⟨turn', hturn'⟩ := build_turn h hthere hp
    have hlane := (build_lane h hhere hp hturn).2.2
    have hnext := (build_lane h hthere hp hturn').2.2
    have hcue : turn.cue.next = some turn'.cue.home.position := by
      simp [build_next h hhere hp hturn, hthere, hnext]
    refine ⟨_, _, _, hlane, hnext, by rw [Show.reached?, hturn]; rfl, ?_, ?_⟩
    · exact lead_finish (replays_perform turn) hcue
    · rw [marked_iff h hhere hp hturn]
      refine (told_perform turn).mem_wrongPlace_finish.trans ?_
      simp [hcue]
  · intro last hlast
    rw [List.getLast?_eq_getElem?] at hlast
    refine (build_unmarked h hlast _).2 fun p hp turn hturn => ?_
    refine get?_wrongPlace_finish (told_perform turn) ?_
    rw [build_next h hlast hp hturn, List.getElem?_eq_none (by omega)]
    rfl

theorem no_jump_sample : ∃ here there, sample.scenes[0]? = some here ∧
    sample.scenes[1]? = some there ∧ ∀ p < 3, ∃ lane next, here.lanes[p]? = some lane ∧
      there.lanes[p]? = some next ∧ Motion.lead lane.routine.motions lane.start = next.start := by
  obtain ⟨here, hhere⟩ : ∃ here, sample.scenes[0]? = some here :=
    Option.isSome_iff_exists.1 (by decide +kernel)
  obtain ⟨there, hthere⟩ : ∃ there, sample.scenes[1]? = some there :=
    Option.isSome_iff_exists.1 (by decide +kernel)
  have hfits : ∀ p < 3, ∀ next ∈ sample.scenes[1]?.bind (·.lanes[p]?),
      ∀ reached ∈ Show.sample.reached? p 0, next.start.SubFits reached := by decide +kernel
  refine ⟨here, there, hhere, hthere, fun p hp => ?_⟩
  obtain ⟨lane, next, reached, hlane, hnext, hreached, hlead, -⟩ :=
    (no_jump build_sample).1 0 here there hhere hthere p hp
  refine ⟨lane, next, hlane, hnext, hlead (hfits p hp next ?_ reached hreached)⟩
  rw [hthere]
  exact hnext

end Timeline
end FieldShow
