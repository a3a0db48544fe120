import FieldShow.Proofs.Fitting

/-!
Ways in two legs: along one axis and then along the other, or along an axis and along a diagonal.
The legs make up the way exactly and never lead away from it, so a marcher who has the beats for
them comes to the place, however far it lies.
-/

namespace FieldShow

open Numeric

namespace Vec

variable {v first second : Vec}

def OnAxis (v : Vec) : Prop := v.x = 0 ∨ v.y = 0

def OnDiagonal (v : Vec) : Prop := v.x.toInt.natAbs = v.y.toInt.natAbs

def wholeSteps (v : Vec) : Nat := max v.x.toInt.natAbs v.y.toInt.natAbs / unitsPerStep

/-- Two legs make up `v`, and the first is a part of it. -/
structure Split (v first second : Vec) : Prop where
  x : first.x.toInt + second.x.toInt = v.x.toInt
  y : first.y.toInt + second.y.toInt = v.y.toInt
  part : first.Part v

theorem Split.symm (h : v.Split first second) : v.Split second first where
  x := by rw [Int.add_comm, h.x]
  y := by rw [Int.add_comm, h.y]
  part := by
    obtain ⟨hx, hy, hpart⟩ := h
    unfold Vec.Part Numeric.Part at *
    omega

theorem Part.split (h : first.Part v) : v.Split first (v - first) := by
  have hx := fits_toInt v.x
  have hy := fits_toInt v.y
  have hfits : v.SubFits first := by
    unfold Vec.Part Numeric.Part at h
    unfold SubFits Fits at *
    omega
  obtain ⟨hrestx, hresty⟩ := toInt_sub hfits
  constructor
  · rw [hrestx]
    omega
  · rw [hresty]
    omega
  · exact h

theorem Split.sub_eq (h : v.Split first second) : v - first = second := by
  have hrest := h.part.split
  rw [eq_iff_toInt]
  constructor
  · exact Int.add_left_cancel (hrest.x.trans h.x.symm)
  · exact Int.add_left_cancel (hrest.y.trans h.y.symm)

theorem Split.add_add (h : v.Split first second) (p : Vec) : p + first + second = p + v := by
  rw [← h.sub_eq]
  exact h.part.add_rest p

theorem split_axes (v : Vec) : v.Split ⟨v.x, 0⟩ ⟨0, v.y⟩ where
  x := Int.add_zero _
  y := Int.zero_add _
  part := by
    unfold Vec.Part Numeric.Part
    simp only [Int32.toInt_zero]
    omega

theorem turned {a b : Int32} {opposed : Prop} [Decidable opposed]
    (hopposed : opposed ↔ ¬(a.toInt < 0 ↔ b.toInt < 0)) (h : a.toInt.natAbs ≤ b.toInt.natAbs) :
    (if opposed then saturate (-a.toInt) else a).toInt.natAbs = a.toInt.natAbs ∧
      Numeric.Part (if opposed then saturate (-a.toInt) else a).toInt b.toInt := by
  have ha := fits_toInt a
  have hb := fits_toInt b
  unfold Numeric.Part
  unfold Fits at ha hb
  split
  · next hturn =>
    rw [hopposed] at hturn
    have hfits : Fits (-a.toInt) := ⟨by omega, by omega⟩
    rw [toInt_saturate_of_fits hfits]
    omega
  · next hsame =>
    rw [hopposed] at hsame
    omega

theorem diagonal_legs (v : Vec) : v.legs.diagonal.Part v ∧ v.legs.diagonal.OnDiagonal := by
  have hself (a : Int32) : Numeric.Part a.toInt a.toInt := by
    unfold Numeric.Part
    omega
  have hopposed : ((decide (v.x < 0) != decide (v.y < 0)) = true) ↔
      ¬(v.x.toInt < 0 ↔ v.y.toInt < 0) := by
    simp [Int32.lt_iff_toInt_lt]
  unfold legs OnDiagonal
  dsimp only
  split
  · next hless =>
    obtain ⟨habs, hpart⟩ := turned (hopposed.trans (not_congr iff_comm)) (Nat.le_of_lt hless)
    exact ⟨⟨hpart, hself v.y⟩, habs⟩
  · next hle =>
    obtain ⟨habs, hpart⟩ := turned hopposed (Nat.le_of_not_lt hle)
    exact ⟨⟨hself v.x, hpart⟩, habs.symm⟩

theorem straight_legs (v : Vec) :
    v.legs.straight = v - v.legs.diagonal ∧ v.legs.straight.OnAxis := by
  unfold legs OnAxis
  dsimp only
  split <;> rw [sub_def, Int.sub_self]
  · exact ⟨rfl, .inr rfl⟩
  · exact ⟨rfl, .inl rfl⟩

theorem split_legs (v : Vec) : v.Split v.legs.diagonal v.legs.straight := by
  rw [(straight_legs v).1]
  exact (diagonal_legs v).1.split

theorem natAbs_along (hv : v.OnAxis ∨ v.OnDiagonal) :
    (if v.x = 0 then v.y else v.x).toInt.natAbs = max v.x.toInt.natAbs v.y.toInt.natAbs := by
  split
  · next hx => rw [hx, Int32.toInt_zero, Int.natAbs_zero, Nat.zero_max]
  · next hx =>
    rcases hv with (hx₀ | hy) | hdiagonal
    · exact absurd hx₀ hx
    · rw [hy, Int32.toInt_zero, Int.natAbs_zero, Nat.max_zero]
    · rw [← hdiagonal, Nat.max_self]

theorem planned_wholeSteps (hv : v.OnAxis ∨ v.OnDiagonal) :
    Plan.wholeSteps v = (Motion.leg v.wholeSteps v).map pure := by
  unfold Plan.wholeSteps Motion.leg
  dsimp only
  rw [natAbs_along hv, ← wholeSteps]
  split <;> rfl

theorem beats_wholeSteps (v : Vec) :
    sumOf Motion.beats (Motion.leg v.wholeSteps v) = v.wholeSteps := by
  rw [Motion.beats_leg]
  split
  · next hv =>
    rw [hv]
    rfl
  · rfl

end Vec

/-- The statements that lead to a place in two legs, told by the order of these. -/
inductive Dogleg where
  | eastWestFirst
  | northSouthFirst
  | diagonalFirst
  | straightFirst
deriving DecidableEq, Repr

namespace Dogleg

def action (p : Target) : Dogleg → Action
  | eastWestFirst => .eastWestFirst p
  | northSouthFirst => .northSouthFirst p
  | diagonalFirst => .diagonalFirst p
  | straightFirst => .straightFirst p

def first (v : Vec) : Dogleg → Vec
  | eastWestFirst => ⟨v.x, 0⟩
  | northSouthFirst => ⟨0, v.y⟩
  | diagonalFirst => v.legs.diagonal
  | straightFirst => v.legs.straight

def second (v : Vec) : Dogleg → Vec
  | eastWestFirst => ⟨0, v.y⟩
  | northSouthFirst => ⟨v.x, 0⟩
  | diagonalFirst => v.legs.straight
  | straightFirst => v.legs.diagonal

def Runs (v w : Vec) : Dogleg → Prop
  | eastWestFirst => v.y = 0 ∧ w.x = 0
  | northSouthFirst => v.x = 0 ∧ w.y = 0
  | diagonalFirst => v.OnDiagonal ∧ w.OnAxis
  | straightFirst => v.OnAxis ∧ w.OnDiagonal

variable (d : Dogleg) (v : Vec)

def motions : List Motion := Motion.leg (d.first v).wholeSteps (d.first v) ++
  Motion.leg (d.second v).wholeSteps (d.second v)

def steps : Nat := (d.first v).wholeSteps + (d.second v).wholeSteps

theorem split_legs : v.Split (d.first v) (d.second v) := by
  cases d with
  | eastWestFirst => exact v.split_axes
  | northSouthFirst => exact v.split_axes.symm
  | diagonalFirst => exact v.split_legs
  | straightFirst => exact v.split_legs.symm

theorem runs_legs : d.Runs (d.first v) (d.second v) := by
  have hdiagonal := (Vec.diagonal_legs v).2
  have hstraight := (Vec.straight_legs v).2
  cases d with
  | eastWestFirst | northSouthFirst => exact ⟨rfl, rfl⟩
  | diagonalFirst => exact ⟨hdiagonal, hstraight⟩
  | straightFirst => exact ⟨hstraight, hdiagonal⟩

theorem Runs.planned {d : Dogleg} {v w : Vec} (h : d.Runs v w) :
    (v.OnAxis ∨ v.OnDiagonal) ∧ (w.OnAxis ∨ w.OnDiagonal) := by
  cases d with
  | eastWestFirst => exact ⟨.inl (.inr h.1), .inl (.inl h.2)⟩
  | northSouthFirst => exact ⟨.inl (.inl h.1), .inl (.inr h.2)⟩
  | diagonalFirst => exact ⟨.inr h.1, .inl h.2⟩
  | straightFirst => exact ⟨.inl h.1, .inr h.2⟩

theorem plan_eq (p : Target) (st : Station) :
    ((d.action p).plan st).value =
      .go ((d.motions ((p.locate st).value - st.pos)).map pure) := by
  obtain ⟨hfirst, hsecond⟩ := (d.runs_legs ((p.locate st).value - st.pos)).planned
  rw [motions, List.map_append, ← Vec.planned_wholeSteps hfirst,
    ← Vec.planned_wholeSteps hsecond]
  cases d <;> rfl

theorem laid_motions : ∀ m ∈ d.motions v, m.Laid :=
  List.forall_mem_append.2 ⟨Motion.laid_leg _ _, Motion.laid_leg _ _⟩

theorem beats_motions : sumOf Motion.beats (d.motions v) = d.steps v := by
  rw [motions, sumOf_append, Vec.beats_wholeSteps, Vec.beats_wholeSteps, steps]

theorem lead_motions (p : Vec) : Motion.lead (d.motions v) p = p + v := by
  rw [motions, Motion.lead_append, Motion.lead_leg, Motion.lead_leg, (d.split_legs v).add_add]

end Dogleg

namespace Progress

variable {c : Cue} {s t : Progress}

/-- A statement in two legs leads to its place, in a beat for each whole step of a leg. -/
theorem perform_dogleg {p : Target} {target v : Vec} (d : Dogleg)
    (htarget : (p.locate (s.station c)).value = target) (hv : target - s.pos = v)
    (hfits : target.SubFits s.pos) (henough : d.steps v ≤ s.remaining)
    (ht : s.perform c (d.action p) = t) :
    v.Split (d.first v) (d.second v) ∧ d.Runs (d.first v) (d.second v) ∧
      t.pos = target ∧ t.remaining + d.steps v = s.remaining ∧
      t.motions.toList = s.motions.toList ++ d.motions v ∧
      t.markers.get? .outOfTime = s.markers.get? .outOfTime ∧
      t.overflowed = s.overflowed ∧ t.halted = s.halted := by
  have hplan : ((d.action p).plan (s.station c)).value = .go ((d.motions v).map pure) := by
    rw [d.plan_eq, htarget, ← hv]
    rfl
  rw [← d.beats_motions] at henough
  have hthrough := through_perform hplan (d.laid_motions v) henough
  rw [ht] at hthrough
  have hpos := hthrough.pos
  rw [d.lead_motions, ← hv, Vec.add_sub_of_fits hfits] at hpos
  have hremaining := hthrough.remaining
  rw [d.beats_motions] at hremaining
  exact ⟨d.split_legs v, d.runs_legs v, hpos, hremaining, hthrough.motions, hthrough.outOfTime,
    hthrough.overflowed, hthrough.halted⟩

theorem perform_dogleg_farthest :
    let cue : Cue := ⟨0, .plain, { position := ⟨-2147483648, 0⟩ }, none, none⟩
    let s : Progress := .start ⟨0, -7⟩ 134217727 .empty .empty
    ∃ t, s.perform cue (Dogleg.diagonalFirst.action .start) = t ∧
      t.pos = ⟨-2147483648, 0⟩ ∧ t.remaining = 0 ∧
      t.motions.toList = [.line 0 ⟨-7, 7⟩, .line 134217727 ⟨-2147483641, 0⟩] := by
  intro cue s
  have htarget : (Target.start.locate (s.station cue)).value = ⟨-2147483648, 0⟩ := rfl
  have hsteps : Dogleg.diagonalFirst.steps ⟨-2147483648, 7⟩ = 134217727 := by decide +kernel
  have hlegs : Dogleg.diagonalFirst.motions ⟨-2147483648, 7⟩ =
      [.line 0 ⟨-7, 7⟩, .line 134217727 ⟨-2147483641, 0⟩] := by
    decide +kernel
  have hbeats : s.remaining = 134217727 := rfl
  have hbefore : s.motions.toList = [] := rfl
  obtain ⟨-, -, hpos, hremaining, hmotions, -⟩ :=
    perform_dogleg .diagonalFirst htarget (by decide +kernel) (by decide +kernel)
      (Nat.le_of_eq hsteps) rfl
  rw [hsteps, hbeats] at hremaining
  rw [hbefore, hlegs, List.nil_append] at hmotions
  exact ⟨_, rfl, hpos, Nat.add_eq_right.1 hremaining, hmotions⟩

end Progress
end FieldShow
