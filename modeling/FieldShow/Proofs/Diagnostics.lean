import FieldShow.Proofs.Course
import FieldShow.Proofs.Scenes

/-!
What the markers tell of the end of a sheet. A marcher is marked as out of time exactly when some
motion did not fit, and then no beats are left; so nobody is told both to have had too few beats
and to have had too many.
-/

namespace FieldShow

namespace Progress

variable {c : Cue} {s t : Progress}

/-- Before the end of a sheet the marcher is marked with slips, and as out of time exactly when a
motion did not fit. -/
structure Told (c : Cue) (s : Progress) : Prop where
  own : ∀ k, ∀ p ∈ s.markers.points k, p = c.point
  overflowed : s.overflowed = true ↔ c.point ∈ s.markers.points .outOfTime
  spent : s.overflowed = true → s.remaining = 0
  timeLeft : s.markers.get? .timeLeft = none
  wrongPlace : s.markers.get? .wrongPlace = none

theorem own_register {k : Mistake} (loc : Option Loc)
    (h : ∀ k, ∀ p ∈ s.markers.points k, p = c.point) :
    ∀ j, ∀ p ∈ (s.note { c with loc } k).markers.points j, p = c.point := by
  intro j p hp
  by_cases hj : j = k
  · subst hj
    exact (Markers.mem_points_register_self.1 hp).elim (h j p) id
  · rw [note, Markers.points_register_of_ne hj] at hp
    exact h j p hp

theorem Told.slip {k : Mistake} (hs : s.Told c) (hk : k.IsSlip) (loc : Option Loc) :
    (s.note { c with loc } k).Told c := by
  have h₁ : Mistake.outOfTime ≠ k := fun h => by subst h; exact hk
  have h₂ : Mistake.timeLeft ≠ k := fun h => by subst h; exact hk
  have h₃ : Mistake.wrongPlace ≠ k := fun h => by subst h; exact hk
  exact {
    own := own_register loc hs.own
    overflowed := by
      rw [note, Markers.points_register_of_ne h₁]
      exact hs.overflowed
    spent := hs.spent
    timeLeft := (Markers.get?_register_of_ne h₂ ..).trans hs.timeLeft
    wrongPlace := (Markers.get?_register_of_ne h₃ ..).trans hs.wrongPlace }

theorem Told.overflow (loc : Option Loc) (hs : s.Told c)
    (hm : t.markers = (s.note { c with loc } .outOfTime).markers) (ho : t.overflowed = true)
    (hr : t.remaining = 0) : t.Told c where
  own := by
    rw [hm]
    exact own_register loc hs.own
  overflowed := by
    rw [hm]
    exact iff_of_true ho (Markers.mem_points_register_self.2 (.inr rfl))
  spent _ := hr
  timeLeft := by
    rw [hm]
    exact (Markers.get?_register_of_ne (by decide) ..).trans hs.timeLeft
  wrongPlace := by
    rw [hm]
    exact (Markers.get?_register_of_ne (by decide) ..).trans hs.wrongPlace

theorem Step.told (h : Step c s t) (hs : s.Told c) : t.Told c := by
  cases h with
  | note loc hk => exact hs.slip hk loc
  | remember => exact ⟨hs.own, hs.overflowed, hs.spent, hs.timeLeft, hs.wrongPlace⟩
  | take hm hle =>
    refine ⟨hs.own, hs.overflowed, fun ho => ?_, hs.timeLeft, hs.wrongPlace⟩
    have := hs.spent ho
    change s.remaining - _ = 0
    omega
  | @cut loc m hm _ h₀ hlt =>
    refine hs.overflow loc rfl rfl ?_
    change s.remaining - min m.beats s.remaining = 0
    omega
  | runOut loc h => exact hs.overflow loc rfl rfl h

theorem told_start (pos : Vec) (beats : Nat) (memory : Memory) :
    (start pos beats memory .empty).Told c := by
  constructor <;> simp [start, Markers.get?_empty]

theorem told_perform (turn : Turn) : (turn.perform .empty).Told turn.cue :=
  (turn.course .empty).keeps Step.told (told_start ..)

theorem overflowed_correct (s : Progress) : (s.correct c).overflowed = s.overflowed := by
  obtain ⟨heq, -⟩ | ⟨target, -, -, heq⟩ := s.correct_cases (c := c)
  · rw [heq]
  · rw [heq]
    rfl

theorem overflowed_fill (s : Progress) : (s.fill c).overflowed = s.overflowed := by
  obtain ⟨-, heq⟩ | ⟨-, heq⟩ := s.fill_cases (c := c)
  · rw [heq]
  · rw [heq]
    rfl

theorem remaining_correct_le (s : Progress) : (s.correct c).remaining ≤ s.remaining := by
  obtain ⟨heq, -⟩ | ⟨target, -, -, heq⟩ := s.correct_cases (c := c)
  · exact Nat.le_of_eq (congrArg Progress.remaining heq)
  · rw [heq]
    exact Nat.sub_le ..

theorem points_correct {k : Mistake} (hk : k ≠ .wrongPlace) (s : Progress) :
    (s.correct c).markers.points k = s.markers.points k := by
  obtain ⟨heq, -⟩ | ⟨target, -, -, heq⟩ := s.correct_cases (c := c) <;> rw [heq]
  exact Markers.points_register_of_ne hk ..

theorem points_fill {k : Mistake} (hk : k ≠ .timeLeft) (s : Progress) :
    (s.fill c).markers.points k = s.markers.points k := by
  obtain ⟨-, heq⟩ | ⟨-, heq⟩ := s.fill_cases (c := c) <;> rw [heq]
  exact Markers.points_register_of_ne hk ..

theorem Told.mem_wrongPlace (hs : s.Told c) : c.point ∈ (s.correct c).markers.points .wrongPlace ↔
    ∃ target ∈ c.next, s.pos ≠ target := by
  obtain ⟨heq, hnext⟩ | ⟨target, hnext, hpos, heq⟩ := s.correct_cases (c := c) <;> rw [heq]
  · refine iff_of_false (Markers.not_mem_points hs.wrongPlace) ?_
    rintro ⟨target, htarget, hne⟩
    exact hne (hnext target htarget)
  · exact iff_of_true (Markers.mem_points_register_self.2 (.inr rfl)) ⟨target, hnext, hpos⟩

theorem Told.mem_timeLeft (hs : s.Told c) : c.point ∈ (s.finish c).markers.points .timeLeft ↔
    0 < (s.correct c).remaining := by
  have hnot : ¬c.point ∈ (s.correct c).markers.points .timeLeft := by
    rw [points_correct (by decide)]
    exact Markers.not_mem_points hs.timeLeft
  change c.point ∈ ((s.correct c).fill c).markers.points .timeLeft ↔ _
  obtain ⟨hzero, heq⟩ | ⟨hpos, heq⟩ := (s.correct c).fill_cases (c := c) <;> rw [heq]
  · exact iff_of_false hnot (by omega)
  · exact iff_of_true (Markers.mem_points_register_self.2 (.inr rfl)) hpos

theorem Told.own_finish (hs : s.Told c) :
    ∀ k, ∀ p ∈ (s.finish c).markers.points k, p = c.point := by
  have hcorrect : ∀ k, ∀ p ∈ (s.correct c).markers.points k, p = c.point := by
    obtain ⟨heq, -⟩ | ⟨target, -, -, heq⟩ := s.correct_cases (c := c) <;> rw [heq]
    · exact hs.own
    · exact own_register c.loc hs.own
  change ∀ k, ∀ p ∈ ((s.correct c).fill c).markers.points k, p = c.point
  obtain ⟨-, heq⟩ | ⟨-, heq⟩ := (s.correct c).fill_cases (c := c) <;> rw [heq]
  · exact hcorrect
  · exact own_register c.loc hcorrect

theorem Told.mem_outOfTime (hs : s.Told c) :
    c.point ∈ (s.finish c).markers.points .outOfTime ↔ s.overflowed = true := by
  rw [hs.overflowed, ← points_correct (c := c) (k := .outOfTime) (by decide),
    ← points_fill (c := c) (k := .outOfTime) (by decide)]
  rfl

theorem Told.mem_wrongPlace_finish (hs : s.Told c) :
    c.point ∈ (s.finish c).markers.points .wrongPlace ↔ ∃ target ∈ c.next, s.pos ≠ target := by
  rw [← hs.mem_wrongPlace, ← points_fill (c := c) (k := .wrongPlace) (by decide)]
  rfl

theorem exact_finish (s : Progress) : (s.finish c).routine.exact = true ↔
    s.overflowed = false ∧ (s.correct c).remaining = 0 := by
  simp [finish, overflowed_fill, overflowed_correct]

theorem Told.exact_iff (hs : s.Told c) : (s.finish c).routine.exact = true ↔
    ¬c.point ∈ (s.finish c).markers.points .outOfTime ∧
      ¬c.point ∈ (s.finish c).markers.points .timeLeft := by
  rw [exact_finish, hs.mem_outOfTime, hs.mem_timeLeft]
  simp

theorem Told.not_mem_of_timeLeft (hs : s.Told c)
    (h : c.point ∈ (s.finish c).markers.points .timeLeft) :
    ¬c.point ∈ (s.finish c).markers.points .outOfTime ∧
      ¬c.point ∈ (s.finish c).markers.points .wrongPlace := by
  have hpos := hs.mem_timeLeft.1 h
  constructor
  · intro hout
    have := hs.spent (hs.mem_outOfTime.1 hout)
    have := remaining_correct_le (c := c) s
    omega
  · intro hwrong
    obtain ⟨target, htarget, hne⟩ := hs.mem_wrongPlace_finish.1 hwrong
    obtain ⟨-, hnext⟩ | ⟨_, -, -, heq⟩ := s.correct_cases (c := c)
    · exact hne (hnext target htarget)
    · rw [heq] at hpos
      exact absurd hpos (by simp [take, Motion.line, Motion.lineFacing, note, remember])

end Progress

namespace Timeline

open Progress

variable {s : Show} {o : Settings} {t : Timeline}

/-- A marcher is marked on a scene exactly for what it did there itself. -/
theorem marked_iff (h : build s o = .ok t) {k p : Nat} {sc : Scene}
    (hk : t.scenes[k]? = some sc) (hp : p < t.size) {turn : Turn}
    (hturn : s.turn? p k = some turn) (kind : Mistake) : p ∈ sc.markers.points kind ↔
      turn.cue.point ∈ (turn.outcome .empty).markers.points kind := by
  rw [build_marked h hk, (build_lane h hk hp hturn).1]
  constructor
  · -- nobody is marked by the turn of another
    rintro ⟨q, hq, other, hother, hmem⟩
    have : p = q := ((told_perform other).own_finish kind p hmem).trans
      (build_lane h hk hq hother).1
    subst this
    obtain rfl := Option.some.inj (hturn.symm.trans hother)
    exact hmem
  · intro hmem
    exact ⟨p, hp, turn, hturn, hmem⟩

theorem lt_size_of_marked (h : build s o = .ok t) {k p : Nat} {sc : Scene}
    (hk : t.scenes[k]? = some sc) {kind : Mistake} (hp : p ∈ sc.markers.points kind) :
    p < t.size := by
  obtain ⟨q, hq, turn, hturn, hmem⟩ := (build_marked h hk kind p).1 hp
  have : p = q := ((told_perform turn).own_finish kind p hmem).trans (build_lane h hk hq hturn).1
  exact this ▸ hq

/-- A routine is exact for just those marchers who are told neither to have had too few beats nor
to have had too many, and nobody with too many has also had too few or been led to a place. -/
theorem timing_markers (h : build s o = .ok t) {sc : Scene} (hsc : sc ∈ t.scenes) :
    (∀ p < t.size, ∃ lane, sc.lanes[p]? = some lane ∧ (lane.routine.exact = true ↔
      p ∉ sc.markers.points .outOfTime ∧ p ∉ sc.markers.points .timeLeft)) ∧
    ∀ p ∈ sc.markers.points .timeLeft,
      p ∉ sc.markers.points .outOfTime ∧ p ∉ sc.markers.points .wrongPlace := by
  obtain ⟨k, hk⟩ := List.mem_iff_getElem?.1 hsc
  constructor
  · intro p hp
    obtain ⟨turn, hturn⟩ := build_turn h hk hp
    refine ⟨_, (build_lane h hk hp hturn).2.2, ?_⟩
    rw [marked_iff h hk hp hturn, marked_iff h hk hp hturn]
    exact (told_perform turn).exact_iff
  · intro p hmem
    have hp := lt_size_of_marked h hk hmem
    obtain ⟨turn, hturn⟩ := build_turn h hk hp
    rw [marked_iff h hk hp hturn] at hmem
    rw [marked_iff h hk hp hturn, marked_iff h hk hp hturn]
    exact (told_perform turn).not_mem_of_timeLeft hmem

theorem timing_markers_sample : ∃ sc ∈ sample.scenes, 2 ∈ sc.markers.points .timeLeft ∧
    2 ∉ sc.markers.points .outOfTime ∧ 2 ∉ sc.markers.points .wrongPlace := by
  have hleft : ∃ sc ∈ sample.scenes, 2 ∈ sc.markers.points .timeLeft := by decide +kernel
  obtain ⟨sc, hsc, hmem⟩ := hleft
  exact ⟨sc, hsc, hmem, (timing_markers build_sample hsc).2 2 hmem⟩

end Timeline
end FieldShow
