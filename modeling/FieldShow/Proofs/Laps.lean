import Mathlib.Data.List.Destutter
import Mathlib.Logic.Equiv.Fin.Rotate
import Mathlib.Logic.Function.Iterate
import FieldShow.Proofs.Boundary
import FieldShow.Proofs.Legs
import FieldShow.Proofs.Lengths

/-!
Countermarches go round their loop in order. As long as the ways to the corners are exact, the
motions end in one corner after the other, a corner at which the marcher stands already taking none.
Only the last motion may end off its corner: the beats were too few for it, or the strides were.
-/

namespace FieldShow

theorem Motion.clip_of_le {m : Motion} (hm : m.Laid) {n : Nat} (h : m.beats ≤ n) :
    m.clip n = m := by
  obtain ⟨beats, cursor, path⟩ := m
  obtain rfl : cursor = 0 := hm.cursor
  simp only [clip, Nat.min_eq_left h, Nat.zero_min]

namespace Progress

variable (cue : Cue)

theorem motions_note (k : Mistake) (s : Progress) : (s.note cue k).motions = s.motions := rfl

variable {m : Motion} {s : Progress}

theorem motions_append (hm : m.Laid) (h : s.remaining ≠ 0) :
    (s.append cue m).motions.toList = s.motions.toList ++ [m.clip s.remaining] := by
  unfold append
  split
  · next hle => rw [motions_take, Motion.clip_of_le hm hle, hm.rewind]
  · rw [motions_take, (hm.clip _).rewind]
    rfl

theorem pos_append (hm : m.Laid) (h : m.beats ≤ s.remaining) :
    (s.append cue m).pos = m.destination s.pos := by
  rw [append_of_le h, pos_take hm]

end Progress

namespace Circuit

variable {c : Circuit} {cue : Cue} {leg : Fin 4} {strides : Float} {p : Vec} {m : Motion}

/-! ## The corners in their order -/

/-- The next `n` corners, from the one in which `leg` ends. -/
def lap (c : Circuit) (leg : Fin 4) : Nat → List Vec
  | 0 => []
  | n + 1 => c.corners.get leg :: c.lap (finRotate 4 leg) n

def stridesLeft (strides : Float) (p : Vec) : List Vec → Float
  | [] => strides
  | q :: qs => stridesLeft (strides - (q - p).strides) q qs

/-- The beats that it takes to a corner that is `v` away. -/
def beatsTo (v : Vec) : Nat := if v = 0 then 0 else (toBeats v.strides).value

/-- The legs since a beat was last used, after one more leg. -/
def idleAfter (idle : Nat) (v : Vec) : Nat := if beatsTo v = 0 then idle + 1 else 0

def idleLegs (idle : Nat) (p : Vec) : List Vec → Nat
  | [] => idle
  | q :: qs => idleLegs (idleAfter idle (q - p)) q qs

/-- The motions from place to place, each with the beats that its length takes. Where the marcher
stands already there is none. -/
def route (p : Vec) : List Vec → List Motion
  | [] => []
  | q :: qs => if q = p then route q qs else .line (beatsTo (q - p)) (q - p) :: route q qs

def Enough (strides : Float) (p : Vec) : List Vec → Prop
  | [] => True
  | q :: qs => (q - p).strides ≤ strides ∧ Enough (strides - (q - p).strides) q qs

/-- A motion from `p` that may end off the corner of `leg`: the one to the corner if the beats left
are too few for it, or one along the leg for all the strides left, fewer than it takes to the
corner. It is cut at the beats left. -/
def Short (c : Circuit) (leg : Fin 4) (p : Vec) (strides : Float) (left : Nat) (m : Motion) :
    Prop :=
  let v := c.corners.get leg - p
  (v.strides ≤ strides ∧ left < beatsTo v ∧ m = (Motion.line (beatsTo v) v).clip left) ∨
    (strides < v.strides ∧
      m = (Motion.line (toBeats strides).value (Vec.march (c.headings.get leg) strides)).clip left)

/-- What a walk from `s` to `t` is: `n` corners are passed, and the motions that are added end in
them one after the other, but for a last motion, which may end off its corner. The beats that they
last are gone. Where there is no last motion, the strides or the beats are used up, or a whole lap
took no beats. -/
structure Lapped (c : Circuit) (leg : Fin 4) (strides : Float) (idle : Nat) (s t : Progress)
    (n : Nat) (last : Option Motion) : Prop where
  motions : t.motions.toList = s.motions.toList ++ (route s.pos (c.lap leg n) ++ last.toList)
  ends : s.pos :: Motion.ends (route s.pos (c.lap leg n)) s.pos =
    (c.lap leg n).destutter' (· ≠ ·) s.pos
  enough : Enough strides s.pos (c.lap leg n)
  beats : t.remaining + sumOf Motion.beats (route s.pos (c.lap leg n) ++ last.toList) = s.remaining
  short : ∀ m ∈ last, c.Short ((finRotate 4)^[n] leg) ((c.lap leg n).getLastD s.pos)
    (stridesLeft strides s.pos (c.lap leg n))
    (s.remaining - sumOf Motion.beats (route s.pos (c.lap leg n))) m
  spent : last = none → ¬0 < stridesLeft strides s.pos (c.lap leg n) ∨ t.remaining = 0 ∨
    4 ≤ idleLegs idle s.pos (c.lap leg n)

def Laps (c : Circuit) (leg : Fin 4) (strides : Float) (idle : Nat) (s t : Progress) : Prop :=
  ∃ n last, c.Lapped leg strides idle s t n last

section Lapped

variable {idle : Nat} {s t u : Progress}

theorem laps_rest (hmotions : t.motions = s.motions) (hremaining : t.remaining = s.remaining)
    (hspent : ¬0 < strides ∨ t.remaining = 0 ∨ 4 ≤ idle) : c.Laps leg strides idle s t := by
  refine ⟨0, none, ?_, rfl, trivial, hremaining, nofun, fun _ => hspent⟩
  rw [hmotions]
  exact (List.append_nil _).symm

theorem laps_short (hmotions : t.motions.toList = s.motions.toList ++ [m])
    (hbeats : t.remaining + m.beats = s.remaining)
    (hm : c.Short leg s.pos strides s.remaining m) : c.Laps leg strides idle s t :=
  ⟨0, some m, hmotions, rfl, trivial, hbeats, fun _ h => Option.some.inj h ▸ hm, nofun⟩

def LapsOn (c : Circuit) (leg : Fin 4) (strides : Float) (idle : Nat) (p : Vec) (s t : Progress) :
    Prop :=
  let v := c.corners.get leg - p
  c.Laps (finRotate 4 leg) (strides - v.strides) (idleAfter idle v) s t

theorem LapsOn.stay (h : c.LapsOn leg strides idle s.pos s t)
    (hv : (c.corners.get leg - s.pos).strides ≤ strides) (hcorner : c.corners.get leg = s.pos) :
    c.Laps leg strides idle s t := by
  obtain ⟨n, last, hmotions, hends, henough, hbeats, hshort, hspent⟩ := h
  have hroute : route s.pos (c.lap leg (n + 1)) = route s.pos (c.lap (finRotate 4 leg) n) := by
    rw [lap, route, if_pos hcorner, hcorner]
  rw [hcorner] at henough hshort hspent hv
  refine ⟨n + 1, last, ?_, ?_, ?_, ?_, ?_, ?_⟩
  · rwa [hroute]
  · rwa [hroute, lap, List.destutter'_cons_neg _ (not_not.2 hcorner.symm)]
  · rw [lap, Enough, hcorner]
    exact ⟨hv, henough⟩
  · rwa [hroute]
  · rw [hroute]
    simpa only [Function.iterate_succ_apply, lap, List.getLastD_cons, stridesLeft, hcorner]
      using hshort
  · simpa only [lap, stridesLeft, idleLegs, hcorner] using hspent

theorem LapsOn.pass (h : c.LapsOn leg strides idle s.pos t u)
    (hv : (c.corners.get leg - s.pos).strides ≤ strides) (hcorner : c.corners.get leg ≠ s.pos)
    (hfits : (c.corners.get leg).SubFits s.pos) (hpos : t.pos = c.corners.get leg)
    (hleft : t.remaining + beatsTo (c.corners.get leg - s.pos) = s.remaining)
    (hmotions : t.motions.toList = s.motions.toList ++
      [.line (beatsTo (c.corners.get leg - s.pos)) (c.corners.get leg - s.pos)]) :
    c.Laps leg strides idle s u := by
  obtain ⟨n, last, hrest, hends, henough, hbeats, hshort, hspent⟩ := h
  rw [hpos] at hrest hends henough hbeats hshort hspent
  have hroute : route s.pos (c.lap leg (n + 1)) =
      .line (beatsTo (c.corners.get leg - s.pos)) (c.corners.get leg - s.pos) ::
        route (c.corners.get leg) (c.lap (finRotate 4 leg) n) := by
    rw [lap, route, if_neg hcorner]
  have hgone : s.remaining - sumOf Motion.beats (route s.pos (c.lap leg (n + 1))) =
      t.remaining - sumOf Motion.beats (route (c.corners.get leg) (c.lap (finRotate 4 leg) n)) := by
    rw [hroute, sumOf_cons, ← hleft, Nat.add_comm]
    exact Nat.add_sub_add_left ..
  refine ⟨n + 1, last, ?_, ?_, ?_, ?_, ?_, ?_⟩
  · rw [hrest, hmotions, hroute, List.append_assoc]
    rfl
  · rw [hroute, lap, List.destutter'_cons_pos _ hcorner.symm, Motion.ends, Motion.destination_line,
      Vec.add_sub_of_fits hfits, hends]
  · exact ⟨hv, henough⟩
  · have hline : (Motion.line (beatsTo (c.corners.get leg - s.pos))
        (c.corners.get leg - s.pos)).beats = beatsTo (c.corners.get leg - s.pos) := rfl
    rw [hroute, List.cons_append, sumOf_cons, hline]
    omega
  · rw [hgone]
    simpa only [Function.iterate_succ_apply, lap, List.getLastD_cons, stridesLeft] using hshort
  · simpa only [lap, stridesLeft, idleLegs] using hspent

theorem Lapped.of_noteAll {ks : List Mistake} {n : Nat} {last : Option Motion}
    (h : c.Lapped leg strides idle (s.noteAll cue ks) t n last) :
    c.Lapped leg strides idle s t n last := by
  obtain ⟨hmotions, hends, henough, hbeats, hshort, hspent⟩ := h
  rw [Progress.motions_noteAll] at hmotions
  rw [Progress.remaining_noteAll] at hbeats hshort
  rw [Progress.pos_noteAll] at hmotions hends henough hbeats hshort hspent
  exact ⟨hmotions, hends, henough, hbeats, hshort, hspent⟩

end Lapped

theorem reach_fst (v : Vec) (s : Progress) : (reach cue v s).1 = beatsTo v := by
  unfold reach beatsTo
  split <;> rfl

/-- The ways to corners that are looked at on a walk, each from where the marcher stands then. -/
def outsets (c : Circuit) (leg : Fin 4) (strides : Float) (idle remaining : Nat) (p : Vec) :
    List (Vec × Vec) :=
  if ¬0 < strides ∨ remaining = 0 then []
  else
    let v := c.corners.get leg - p
    (p, c.corners.get leg) ::
      if ¬v.strides ≤ strides ∨ 4 ≤ idleAfter idle v then []
      else
        c.outsets (finRotate 4 leg) (strides - v.strides) (idleAfter idle v) (remaining - beatsTo v)
          (p + v)
termination_by 5 * remaining + (4 - idle)
decreasing_by grind [idleAfter]

theorem walk_of_no_beats {s : Progress} (h : s.remaining = 0) (idle : Nat) :
    (c.walk cue leg strides idle s).motions = s.motions ∧
      (c.walk cue leg strides idle s).remaining = 0 := by
  rw [walk, if_pos h]
  split
  · exact ⟨rfl, h⟩
  · split
    · exact ⟨rfl, h⟩
    · exact ⟨rfl, h⟩

theorem reach_cases (cue : Cue) {corner : Vec} {s : Progress} (hleft : s.remaining ≠ 0)
    (hfits : corner.SubFits s.pos) :
    let v := corner - s.pos
    let after := (reach cue v s).2
    (corner = s.pos ∧ after = s) ∨
      (corner ≠ s.pos ∧ after.pos = corner ∧ after.remaining + beatsTo v = s.remaining ∧
        after.motions.toList = s.motions.toList ++ [.line (beatsTo v) v]) ∨
      (s.remaining < beatsTo v ∧ after.remaining = 0 ∧
        after.motions.toList =
          s.motions.toList ++ [(Motion.line (beatsTo v) v).clip s.remaining]) := by
  intro v after
  have harrive : s.pos + v = corner := Vec.add_sub_of_fits hfits
  by_cases hcorner : corner = s.pos
  · have hv : v = 0 := by rw [show v = corner - s.pos from rfl, hcorner, Vec.sub_self]
    exact .inl ⟨hcorner, congrArg Prod.snd (if_pos hv)⟩
  · have hv : v ≠ 0 := by
      intro hv
      rw [hv, Vec.add_zero] at harrive
      exact hcorner harrive.symm
    have hbeats : beatsTo v = (toBeats v.strides).value := if_neg hv
    have hafter : after = (s.noteAll cue (toBeats v.strides).mistakes).append cue
        (.line (beatsTo v) v) := by
      rw [hbeats]
      exact congrArg Prod.snd (if_neg hv)
    have hlaid : (Motion.line (beatsTo v) v).Laid := (Motion.fresh_line ..).laid
    have hnoted : (s.noteAll cue (toBeats v.strides).mistakes).remaining = s.remaining :=
      s.remaining_noteAll ..
    have hremaining : after.remaining = s.remaining - beatsTo v := by
      rw [hafter, Progress.remaining_append, hnoted]
      rfl
    have hmotions := Progress.motions_append cue hlaid (hnoted ▸ hleft)
    rw [hnoted, Progress.motions_noteAll, ← hafter] at hmotions
    by_cases hle : beatsTo v ≤ s.remaining
    · have hpos := Progress.pos_append cue hlaid (hnoted ▸ hle)
      rw [Progress.pos_noteAll, Motion.destination_line, harrive, ← hafter] at hpos
      rw [Motion.clip_of_le hlaid hle] at hmotions
      exact .inr (.inl ⟨hcorner, hpos, by omega, hmotions⟩)
    · exact .inr (.inr ⟨by omega, by omega, hmotions⟩)

theorem laps_reach {idle : Nat} {s t : Progress} (hleft : s.remaining ≠ 0)
    (hv : (c.corners.get leg - s.pos).strides ≤ strides)
    (hfits : (c.corners.get leg).SubFits s.pos) :
    let after := (reach cue (c.corners.get leg - s.pos) s).2
    (after.remaining = 0 → t.motions = after.motions ∧ t.remaining = 0) →
    (after.pos = c.corners.get leg → c.LapsOn leg strides idle s.pos after t) →
    c.Laps leg strides idle s t := by
  intro after hend hrest
  obtain ⟨hcorner, hafter⟩ | ⟨hcorner, hpos, hgone, hmotions⟩ | ⟨hlt, hnone, hmotions⟩ :=
    reach_cases cue hleft hfits
  · have hlaps := hrest (hcorner ▸ congrArg Progress.pos hafter)
    rw [show after = s from hafter] at hlaps
    exact hlaps.stay hv hcorner
  · exact (hrest hpos).pass hv hcorner hfits hpos hgone hmotions
  · -- the motion takes all the beats that are left
    obtain ⟨hsame, hspent⟩ := hend hnone
    refine laps_short (by rw [hsame, hmotions]) ?_ (.inl ⟨hv, hlt, rfl⟩)
    rw [hspent, Nat.zero_add]
    exact Nat.min_eq_right (Nat.le_of_lt hlt)

section Outsets

variable {idle remaining : Nat}

theorem subFits_of_outsets (hmore : ¬¬0 < strides) (hleft : remaining ≠ 0)
    (hfits : ∀ way ∈ c.outsets leg strides idle remaining p, way.2.SubFits way.1) :
    (c.corners.get leg).SubFits p := by
  rw [outsets, if_neg (not_or.2 ⟨hmore, hleft⟩)] at hfits
  exact hfits (p, c.corners.get leg) (List.mem_cons_self ..)

theorem outsets_on (hmore : ¬¬0 < strides) (hleft : remaining ≠ 0)
    (hv : (c.corners.get leg - p).strides ≤ strides)
    (hidle : ¬4 ≤ idleAfter idle (c.corners.get leg - p)) (hfits : (c.corners.get leg).SubFits p) :
    c.outsets leg strides idle remaining p = (p, c.corners.get leg) ::
      c.outsets (finRotate 4 leg) (strides - (c.corners.get leg - p).strides)
        (idleAfter idle (c.corners.get leg - p)) (remaining - beatsTo (c.corners.get leg - p))
        (c.corners.get leg) := by
  rw [outsets, if_neg (not_or.2 ⟨hmore, hleft⟩)]
  dsimp only
  rw [if_neg (not_or.2 ⟨not_not.2 hv, hidle⟩), Vec.add_sub_of_fits hfits]

end Outsets

theorem laps_on {idle : Nat} {s : Progress} (hmore : ¬¬0 < strides) (hleft : s.remaining ≠ 0)
    (hv : (c.corners.get leg - s.pos).strides ≤ strides)
    (hidle : ¬4 ≤ idleAfter idle (c.corners.get leg - s.pos))
    (hfits : ∀ way ∈ c.outsets leg strides idle s.remaining s.pos, way.2.SubFits way.1) :
    let v := c.corners.get leg - s.pos
    let after := (reach cue v s).2
    let t := c.walk cue (leg + 1) (strides - v.strides) (idleAfter idle v) after
    ((∀ way ∈ c.outsets (leg + 1) (strides - v.strides) (idleAfter idle v) after.remaining
      after.pos, way.2.SubFits way.1) →
        c.Laps (leg + 1) (strides - v.strides) (idleAfter idle v) after t) →
    c.Laps leg strides idle s t := by
  intro v after t hrest
  have hcorner := subFits_of_outsets hmore hleft hfits
  have hremaining : after.remaining = s.remaining - beatsTo v := by
    rw [← reach_fst v s]
    exact remaining_reach cue v s
  rw [outsets_on hmore hleft hv hidle hcorner] at hfits
  -- a motion that was cut is the last, as there are no beats left after it
  refine laps_reach hleft hv hcorner (fun h => walk_of_no_beats h _) fun hpos => ?_
  rw [LapsOn, finRotate_apply]
  rw [finRotate_apply] at hfits
  refine hrest ?_
  rw [hremaining, hpos]
  exact fun way hway => hfits way (List.mem_cons_of_mem _ hway)

theorem laps_walk {idle : Nat} {s : Progress}
    (hfits : ∀ way ∈ c.outsets leg strides idle s.remaining s.pos, way.2.SubFits way.1) :
    c.Laps leg strides idle s (c.walk cue leg strides idle s) := by
  -- the first three cases end before a leg, the fourth after it, the last in the middle of it
  fun_induction walk cue c leg strides idle s with
  | case1 leg strides idle s hmore => exact laps_rest rfl rfl (.inl hmore)
  | case2 leg strides idle s hmore hleft => exact laps_rest rfl rfl (.inr (.inl hleft))
  | case3 leg strides idle s hmore hleft => exact laps_rest rfl rfl (.inr (.inl hleft))
  | case4 leg strides idle s hmore hleft v hv after hnone hidle =>
    have hnote := Progress.motions_note cue .badCountermarch after.2
    have hafter : idleAfter idle v = idle + 1 := if_pos (reach_fst v s ▸ hnone)
    exact laps_reach hleft hv (subFits_of_outsets hmore hleft hfits) (fun hspent => ⟨hnote, hspent⟩)
      fun _ => laps_rest hnote rfl (.inr (.inr (hafter ▸ hidle)))
  | case5 leg strides idle s hmore hleft v hv after hnone hidle ih =>
    have hafter : idleAfter idle v = idle + 1 := if_pos (reach_fst v s ▸ hnone)
    rw [← hafter] at hidle ih ⊢
    exact laps_on hmore hleft hv hidle hfits ih
  | case6 leg strides idle s hmore hleft v hv after hsome ih =>
    have hafter : idleAfter idle v = 0 := if_neg (reach_fst v s ▸ hsome)
    have hidle : ¬4 ≤ idleAfter idle v := by
      rw [hafter]
      decide
    rw [← hafter] at ih ⊢
    exact laps_on hmore hleft hv hidle hfits ih
  | case7 leg strides idle s hmore hleft v hv beats =>
    have hnoted : (s.noteAll cue beats.mistakes).remaining = s.remaining := s.remaining_noteAll ..
    have hmotions := Progress.motions_append cue (s := s.noteAll cue beats.mistakes)
      (Motion.fresh_line beats.value (Vec.march (c.headings.get leg) strides)).laid (hnoted ▸ hleft)
    rw [hnoted, Progress.motions_noteAll] at hmotions
    refine laps_short hmotions ?_ (.inr ⟨v.lt_strides (not_not.1 hmore) hv, rfl⟩)
    rw [Progress.remaining_append, hnoted]
    exact (congrArg _ (Nat.min_comm ..)).trans (Nat.sub_add_min_cancel ..)

end Circuit

/-! ## Countermarches -/

variable {c : Circuit} {leg : Fin 4} {strides : Float}

theorem Plan.legAt?_of_around {st : Station} {entry through : Vec} {steps first second x : Float}
    (h : (around st entry through steps first second x).value = .circuit c leg strides) :
    c.legAt? st.pos = some leg := by
  unfold around at h
  split at h
  · cases h
  · split at h
    · cases h
    · next hleg =>
      cases h
      exact hleg

theorem Plan.legAt?_of_aroundBy {st : Station} {entry through : Vec}
    {headings : Option (Constant × Constant)} {x : Float}
    (h : (aroundBy st entry through headings x).value = .circuit c leg strides) :
    c.legAt? st.pos = some leg := by
  unfold aroundBy at h
  split at h
  · exact legAt?_of_around h
  · cases h

theorem Action.legAt?_of_plan {a : Action} {st : Station}
    (h : (a.plan st).value = .circuit c leg strides) : c.legAt? st.pos = some leg := by
  have hplans := a.plan_plans st
  rw [h] at hplans
  cases a with
  | countermarch => exact Plan.legAt?_of_around h
  | diagonalCountermarch | straightCountermarch => exact Plan.legAt?_of_aroundBy h
  | _ => cases hplans

theorem Action.value_countermarch (p q : Target) (steps first second beats : Expr) (st : Station) :
    ((countermarch p q steps first second beats).plan st).value =
      (Plan.around st (p.locate st).value (q.locate st).value (steps.eval st).value
        (first.eval st).value (second.eval st).value (beats.eval st).value).value := rfl

theorem Plan.around_eq (st : Station) {entry through : Vec} {steps first second : Float}
    (strides : Float) (hlay : Circuit.lay? entry through steps first second = some c)
    (hleg : c.legAt? st.pos = some leg) :
    around st entry through steps first second strides = pure (.circuit c leg strides) := by
  simp only [around, hlay, hleg]

/-- A countermarch that finds its leg goes on from there round the loop, as long as the ways to the
corners are exact. -/
theorem Progress.perform_lapped {cue : Cue} {a : Action} {s : Progress}
    (hplan : (a.plan (s.station cue)).value = .circuit c leg strides)
    (hfits : ∀ way ∈ c.outsets leg strides 0 s.remaining s.pos, way.2.SubFits way.1) :
    c.legAt? s.pos = some leg ∧
      ∃ n last, c.Lapped leg strides 0 s (s.perform cue a) n last := by
  have hleg : c.legAt? (s.station cue).pos = some leg := Action.legAt?_of_plan hplan
  refine ⟨hleg, ?_⟩
  set ks := (a.plan (s.station cue)).mistakes
  have hlaps : c.Laps leg strides 0 (s.noteAll cue ks)
      (c.walk cue leg strides 0 (s.noteAll cue ks)) := by
    refine Circuit.laps_walk ?_
    rwa [remaining_noteAll, pos_noteAll]
  obtain ⟨n, last, h⟩ := hlaps
  refine ⟨n, last, ?_⟩
  rw [perform, hplan]
  exact h.of_noteAll

def Circuit.block : Circuit := (lay? ⟨64, 32⟩ ⟨96, 32⟩ 4 90 0).get (by decide +kernel)

theorem Progress.perform_lapped_block :
    let home : Placement := ⟨⟨64, 32⟩, #v[some ⟨64, 32⟩, some ⟨96, 32⟩, none], .plain⟩
    let cue : Cue := ⟨0, .plain, home, none, none⟩
    let s : Progress := .start ⟨64, 32⟩ 20 .empty .empty
    let a : Action := .countermarch (.ref 1) (.ref 2) (.number 4) (.constant .north)
      (.constant .east) (.number 12)
    (a.plan (s.station cue)).value = .circuit .block 1 12 ∧ Circuit.block.legAt? s.pos = some 1 ∧
      ∃ n last, Circuit.block.Lapped 1 12 0 s (s.perform cue a) n last := by
  intro home cue s a
  have hplan : (a.plan (s.station cue)).value = .circuit .block 1 12 := by
    have hentry : ((Target.ref 1).locate (s.station cue)).value = ⟨64, 32⟩ := rfl
    have hthrough : ((Target.ref 2).locate (s.station cue)).value = ⟨96, 32⟩ := rfl
    have hsteps : ((Expr.number 4).eval (s.station cue)).value = 4 := rfl
    have hfirst : ((Expr.constant .north).eval (s.station cue)).value = 90 := rfl
    have hsecond : ((Expr.constant .east).eval (s.station cue)).value = 0 := rfl
    have hstrides : ((Expr.number 12).eval (s.station cue)).value = 12 := rfl
    have hleg : Circuit.block.legAt? ⟨64, 32⟩ = some 1 := by decide +kernel
    have haround := Plan.around_eq (s.station cue) 12
      (Option.some_get _).symm hleg
    rw [Action.value_countermarch, hentry, hthrough, hsteps, hfirst, hsecond, hstrides, haround]
    rfl
  have hfits : ∀ way ∈ Circuit.block.outsets 1 12 0 20 ⟨64, 32⟩, way.2.SubFits way.1 := by
    decide +kernel
  exact ⟨hplan, perform_lapped hplan hfits⟩

end FieldShow
