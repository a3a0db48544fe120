import FieldShow.Proofs.Boundary
import FieldShow.Proofs.Counts

/-!
Marchers without a continuity. One motion brings such a marcher to its place on the next sheet, or
lets it stand where it is. The beats of the way are a number that is read as a count, so those that
32 bits with a sign do not hold are left over.
-/

namespace FieldShow

/-- One motion in all the beats of a sheet from one place to another, and no mistake. -/
structure Outcome.Clean (o : Outcome) (beats : Nat) (home target : Vec) : Prop where
  single : ∃ m, o.routine.motions = [m] ∧ m.beats = beats ∧ m.destination home = target
  exact : o.routine.exact = true
  unmarked : o.markers = .empty

namespace Progress

open Numeric

variable {c : Cue} {s : Progress}

theorem clean_finish_iff {m : Motion} {home : Vec} (hmotions : s.motions.toList = [m])
    (hmarkers : s.markers = .empty) (hfits : s.overflowed = false)
    (harrived : ∀ target ∈ c.next, s.pos = target) (hlead : m.destination home = s.pos) :
    (s.finish c).Clean (m.beats + s.remaining) home s.pos ↔ s.remaining = 0 := by
  have hcorrect : s.correct c = s := by
    obtain ⟨heq, -⟩ | ⟨target, hnext, hne, -⟩ := s.correct_cases (c := c)
    · exact heq
    · exact absurd (harrived target hnext) hne
  have hexact := exact_finish (c := c) s
  rw [hcorrect] at hexact
  constructor
  · intro h
    exact (hexact.1 h.exact).2
  · intro hspent
    have hfill : s.fill c = s := by
      obtain ⟨-, heq⟩ | ⟨hleft, -⟩ := s.fill_cases (c := c)
      · exact heq
      · omega
    refine ⟨⟨m, ?_, by omega, hlead⟩, hexact.2 ⟨hfits, hspent⟩, ?_⟩
    · rw [finish, hcorrect, hfill, hmotions]
    · rw [finish, hcorrect, hfill, hmarkers]

theorem clean_take_iff {m : Motion} (hm : m.Laid) (home : Vec) {beats : Nat}
    (hle : m.beats ≤ beats) (memory : Memory)
    (harrives : ∀ target ∈ c.next, m.destination home = target) :
    (((start home beats memory .empty).take c m).finish c).Clean beats home (m.destination home) ↔
      beats ≤ m.beats := by
  have hpos := pos_take (c := c) hm (start home beats memory .empty)
  have hmotions := motions_take c m (start home beats memory .empty)
  rw [hm.rewind] at hmotions
  have hremaining : ((start home beats memory .empty).take c m).remaining = beats - m.beats := rfl
  have hiff := clean_finish_iff hmotions rfl rfl (fun target h => hpos.trans (harrives target h))
    hpos.symm
  rwa [hpos, hremaining, Nat.add_sub_cancel' hle, Nat.sub_eq_zero_iff_le] at hiff

theorem perform_of_single {a : Action} {m : Motion}
    (h : a.plan (s.station c) = pure (Plan.single m)) : s.perform c a = s.append c m := by
  rw [perform, h]
  exact ite_self (s.append c m)

theorem plan_standOut (st : Station) :
    (Action.standOut (.constant .east)).plan st = pure (Plan.single (.stand st.remaining 0)) := rfl

theorem plan_evenly {st : Station} {target : Vec} (hnext : st.next = some target) {n : ℕ}
    (hn : n < 2 ^ 52) : (Action.evenly (.number (.ofNat n)) .next).plan st =
      pure (Plan.single (.line (min n 2147483647) (target - st.pos))) := by
  have hcount : toCount (.ofNat n) = pure (saturate n) := toCount_ofInt (n := n) hn
  have hbeats : (saturate n).toInt = min n 2147483647 := by
    rw [toInt_saturate]
    omega
  have hpos : ¬saturate n < 0 := by
    have hzero : (0 : Int32).toInt = 0 := rfl
    rw [Int32.not_lt, Int32.le_iff_toInt_le, hbeats, hzero]
    omega
  have hdirected (v : Vec) : Plan.directed (saturate n) v = .line (min n 2147483647) v := by
    rw [Plan.directed, if_neg hpos, hbeats]
    rfl
  have hplan : (Action.evenly (.number (.ofNat n)) .next).plan st = do
      let beats ← toCount (.ofNat n)
      return Plan.single (Plan.directed beats (target - st.pos)) := by
    simp only [Action.plan, Target.locate, hnext]
    rfl
  rw [hplan, hcount, ← hdirected]
  rfl

theorem runDefault_stand (h : c.next = none) (s : Progress) :
    s.runDefault c = s.take c (.stand s.remaining 0) := by
  rw [runDefault, Cue.defaultAction, h]
  exact (perform_of_single (plan_standOut _)).trans (append_of_le (Nat.le_refl _))

theorem runDefault_line {target : Vec} (h : c.next = some target) (hbeats : s.remaining < 2 ^ 52) :
    s.runDefault c = s.take c (.line (min s.remaining 2147483647) (target - s.pos)) := by
  rw [runDefault, Cue.defaultAction, h]
  exact (perform_of_single (plan_evenly h hbeats)).trans (append_of_le (Nat.min_le_left ..))

end Progress

theorem Show.Valid.inRange {s : Show} (h : s.Valid) {sheet : Sheet} (hsheet : sheet ∈ s.sheets)
    {point : Nat} {p : Placement} (hp : sheet.placements[point]? = some p) : p.position.InRange :=
  (h sheet hsheet).2 p (List.mem_of_getElem? hp) p.position (List.mem_cons_self ..)

theorem Show.Valid.inRange_placeAfter {s : Show} (h : s.Valid) {index point : Nat} {target : Vec}
    (htarget : s.placeAfter? index point = some target) : target.InRange := by
  obtain ⟨sheet, hnext, hplace⟩ := Option.bind_eq_some_iff.1 htarget
  obtain ⟨p, hp, rfl⟩ := Option.map_eq_some_iff.1 hplace
  exact h.inRange (List.mem_of_mem_drop (List.mem_of_find?_eq_some hnext)) hp

theorem Vec.InRange.subFits {v w : Vec} (hv : v.InRange) (hw : w.InRange) : v.SubFits w := by
  have hlimit : limit = 16777216 := rfl
  obtain ⟨hvx, hvy⟩ := hv
  obtain ⟨hwx, hwy⟩ := hw
  constructor <;> constructor <;> omega

theorem Turn.perform_unscripted {t : Turn} (h : t.program.getD [] = []) (markers : Markers) :
    t.perform markers =
      (Progress.start t.cue.home.position t.beats t.memory markers).runDefault t.cue := by
  obtain ⟨cue, program, beats, memory⟩ := t
  match program with
  | some (st :: rest) => cases h
  | some [] | none => rfl

open Progress

namespace Turn

variable {t : Turn}

theorem clean_stand (h : t.program.getD [] = []) (hnext : t.cue.next = none) :
    (t.outcome .empty).Clean t.beats t.cue.home.position t.cue.home.position := by
  rw [outcome, perform_unscripted h, runDefault_stand hnext]
  have hiff := clean_take_iff (c := t.cue) (Motion.fresh_stand t.beats 0).laid
    t.cue.home.position (Nat.le_refl _) t.memory (by simp [hnext])
  rw [Motion.destination_stand] at hiff
  exact hiff.2 (Nat.le_refl _)

theorem clean_line_iff (h : t.program.getD [] = []) {target : Vec}
    (hnext : t.cue.next = some target) (hbeats : t.beats < UInt32.size)
    (hfits : target.SubFits t.cue.home.position) :
    (t.outcome .empty).Clean t.beats t.cue.home.position target ↔ t.beats < 2147483648 := by
  have hfew : t.beats < 2 ^ 52 := hbeats.trans (by decide)
  rw [outcome, perform_unscripted h, runDefault_line hnext hfew]
  have hlead (n : Nat) : (Motion.line n (target - t.cue.home.position)).destination
      t.cue.home.position = target := by
    rw [Motion.destination_line, Vec.add_sub_of_fits hfits]
  have hiff := clean_take_iff (c := t.cue)
    (Motion.fresh_line (min t.beats 2147483647) (target - t.cue.home.position)).laid
    t.cue.home.position (Nat.min_le_left ..) t.memory (by simp [hnext, hlead])
  rw [hlead] at hiff
  refine hiff.trans ?_
  change t.beats ≤ min t.beats 2147483647 ↔ _
  omega

end Turn

/-- In a valid show a marcher without a continuity has a routine, which is clean unless the marcher
has to go to a next sheet in more beats than a count of 32 bits with a sign holds. -/
theorem Show.outcome_unscripted {s : Show} (h : s.Valid) {index point : Nat} {sheet : Sheet}
    {home : Placement} (hsheet : s.sheets[index]? = some sheet)
    (hhome : sheet.placements[point]? = some home) {symbol : Symbol}
    (hbook : (sheet.book.get? symbol).getD [] = []) :
    ∃ o, s.outcome index point symbol = .ok o ∧
      (o.Clean sheet.beats.toNat home.position
          ((s.placeAfter? index point).getD home.position) ↔
        s.placeAfter? index point = none ∨ sheet.beats.toNat < 2147483648) := by
  refine ⟨_, h.outcome_eq hsheet hhome symbol, ?_⟩
  cases hnext : s.placeAfter? index point with
  | none =>
    have hclean := Turn.clean_stand (t := s.turn index point sheet home symbol .empty) hbook hnext
    exact iff_of_true hclean (.inl rfl)
  | some target =>
    have hfits : target.SubFits home.position :=
      (h.inRange_placeAfter hnext).subFits (h.inRange (List.mem_of_getElem? hsheet) hhome)
    have hiff := Turn.clean_line_iff (t := s.turn index point sheet home symbol .empty) hbook hnext
      sheet.beats.toNat_lt hfits
    simp only [Option.getD_some, reduceCtorEq, false_or]
    exact hiff

theorem Show.outcome_unscripted_sample : ∃ o, Show.sample.outcome 0 1 .slash = .ok o ∧
    o.Clean 8 ⟨100, 0⟩ ⟨100, 160⟩ := by
  have hvalid : Show.sample.Valid := by decide +kernel
  have hsheet : Show.sample.sheets[0]? = some Show.sample.sheets[0] := rfl
  have hhome : Show.sample.sheets[0].placements[1]? =
    some Show.sample.sheets[0].placements[1] := rfl
  have hbook : (Show.sample.sheets[0].book.get? .slash).getD [] = [] := by decide
  obtain ⟨o, ho, hclean⟩ := Show.outcome_unscripted hvalid hsheet hhome hbook
  exact ⟨o, ho, hclean.2 (.inr (by decide))⟩

/-- One beat more on the way to the next sheet than a count of 32 bits with a sign holds. -/
def Show.eternal : Show :=
  ⟨[⟨"eternal", 2147483648, true, [{ position := ⟨0, 0⟩ }], .empty⟩,
    ⟨"after", 4, true, [{ position := ⟨160, 0⟩ }], .empty⟩]⟩

/-- The marcher comes to its place a beat too early, stands, and is told so. -/
theorem Show.outcome_eternal : ∃ o, Show.eternal.outcome 0 0 .plain = .ok o ∧
    o.routine.motions.map Motion.beats = [2147483647, 1] ∧ 0 ∈ o.markers.points .timeLeft ∧
    ¬o.Clean 2147483648 ⟨0, 0⟩ ⟨160, 0⟩ := by
  have hvalid : Show.eternal.Valid := by decide +kernel
  have hsheet : Show.eternal.sheets[0]? = some Show.eternal.sheets[0] := rfl
  have hhome : Show.eternal.sheets[0].placements[0]? = some { position := ⟨0, 0⟩ } := rfl
  refine ⟨_, hvalid.outcome_eq hsheet hhome .plain, by decide +kernel, by decide +kernel, ?_⟩
  intro h
  have hinexact : ((Show.eternal.turn 0 0 Show.eternal.sheets[0] { position := ⟨0, 0⟩ } .plain
      .empty).outcome .empty).routine.exact = false := by decide +kernel
  have hexact := h.exact
  rw [hinexact] at hexact
  cases hexact

end FieldShow
