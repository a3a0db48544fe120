import FieldShow.Proofs.Fitting

/-!
Grid lines. Wherever a marcher stands, it comes to the nearest line along each axis, or as near to
it as the range goes, and has no beat to pay for it. There it stays when it is sent to the grid
again.
-/

namespace FieldShow

open Numeric

namespace Numeric

/-- The multiple of `g` nearest to `a`, of two the one that is farther from zero. -/
structure NearestMultiple (g a n : Int) : Prop where
  dvd : g ∣ n
  nearest : ∀ k, g ∣ k → (a - n).natAbs ≤ (a - k).natAbs
  away : ∀ k, g ∣ k → (a - k).natAbs = (a - n).natAbs → k.natAbs ≤ n.natAbs

variable {g a n k : Int}

theorem NearestMultiple.error_le (h : NearestMultiple g a n) (hg : g ≠ 0) :
    2 * (a - n).natAbs ≤ g.natAbs := by
  have habove := h.nearest (n + g) (Int.dvd_add h.dvd (Int.dvd_refl g))
  have hbelow := h.nearest (n - g) (Int.dvd_sub h.dvd (Int.dvd_refl g))
  omega

theorem eq_or_natAbs_le (hn : g ∣ n) (hk : g ∣ k) : k = n ∨ g.natAbs ≤ (k - n).natAbs := by
  rcases Decidable.em (k = n) with heq | hne
  · exact .inl heq
  · have hdvd : g.natAbs ∣ (k - n).natAbs := Int.natAbs_dvd_natAbs.2 (Int.dvd_sub hk hn)
    exact .inr (Nat.le_of_dvd (by omega) hdvd)

theorem nearestMultiple_of_sizes (hdvd : g ∣ n) (hsign : 0 ≤ a ∧ 0 ≤ n ∨ a ≤ 0 ∧ n ≤ 0)
    (hle : n.natAbs ≤ a.natAbs + g.natAbs / 2)
    (hlt : a.natAbs + g.natAbs / 2 < n.natAbs + g.natAbs) : NearestMultiple g a n where
  dvd := hdvd
  nearest k hk := by
    rcases eq_or_natAbs_le hdvd hk with rfl | hapart
    · exact Nat.le_refl _
    · omega
  away k hk htie := by
    rcases eq_or_natAbs_le hdvd hk with rfl | hapart
    · exact Nat.le_refl _
    · omega

theorem fits_saturate_sub (hg : Fits g) (hne : g ≠ 0) (ha : Fits a) (h : NearestMultiple g a n) :
    Fits ((saturate n).toInt - a) := by
  have herror := h.error_le hne
  rw [toInt_saturate]
  unfold Fits at *
  omega

theorem saturate_eq_of_nearest (ha : Fits a) (h : NearestMultiple g a n)
    (hk : NearestMultiple g (saturate n).toInt k) : saturate k = saturate n := by
  -- a multiple that was cut off is still the nearest one beyond the end of the range
  have hfirst := h.nearest k hk.dvd
  have hsecond := hk.nearest n h.dvd
  have htie := hk.away n h.dvd
  refine Int32.toInt_inj.1 ?_
  unfold Fits at ha
  simp only [toInt_saturate] at *
  omega

end Numeric

namespace Vec

/-- What becomes of a coordinate on a grid of size `g`: the multiple nearest to it, or the end of
the range before that. -/
def NearestLine (g a b : Int32) : Prop :=
  if g = 0 then b = a else ∃ n, NearestMultiple g.toInt a.toInt n ∧ b = saturate n

variable {g : Int32}

theorem gridLine_zero (a : Int32) : gridLine 0 a = a := rfl

theorem toInt_ne_zero (hg : g ≠ 0) : g.toInt ≠ 0 :=
  fun h => hg (Int32.toInt_inj.1 (h.trans Int32.toInt_zero.symm))

theorem exists_gridLine_eq (hg : g ≠ 0) (a : Int32) :
    ∃ n, NearestMultiple g.toInt a.toInt n ∧ gridLine g a = saturate n := by
  have hsize : g.toInt.natAbs ≠ 0 := Int.natAbs_ne_zero.2 (toInt_ne_zero hg)
  unfold gridLine
  dsimp only
  rw [if_neg hsize]
  refine ⟨_, ?_, rfl⟩
  generalize hraised : a.toInt.natAbs + g.toInt.natAbs / 2 = raised
  have hle : raised / g.toInt.natAbs * g.toInt.natAbs ≤ raised := Nat.div_mul_le_self ..
  have hlt : raised < raised / g.toInt.natAbs * g.toInt.natAbs + g.toInt.natAbs :=
    Nat.lt_div_mul_add (Nat.pos_of_ne_zero hsize)
  have hdvd : g.toInt.natAbs ∣ raised / g.toInt.natAbs * g.toInt.natAbs := Nat.dvd_mul_left ..
  generalize raised / g.toInt.natAbs * g.toInt.natAbs = n at *
  have hmultiple : g.toInt ∣ n := Int.ofNat_dvd_right.2 hdvd
  split
  · next hneg =>
    rw [Int32.lt_iff_toInt_lt, Int32.toInt_zero] at hneg
    apply nearestMultiple_of_sizes (Int.dvd_neg.2 hmultiple) <;> omega
  · next hneg =>
    rw [Int32.lt_iff_toInt_lt, Int32.toInt_zero] at hneg
    apply nearestMultiple_of_sizes hmultiple <;> omega

theorem nearestLine_gridLine (g a : Int32) : NearestLine g a (gridLine g a) := by
  unfold NearestLine
  split
  · next hg => rw [hg, gridLine_zero]
  · next hg => exact exists_gridLine_eq hg a

example : gridLine 32 16 = 32 ∧ gridLine 32 (-16) = -32 ∧ gridLine 32 (-15) = 0 := by decide

theorem fits_gridLine_sub (g a : Int32) : Fits ((gridLine g a).toInt - a.toInt) := by
  rcases Decidable.em (g = 0) with rfl | hg
  · rw [gridLine_zero, Int.sub_self]
    decide
  · obtain ⟨n, hn, heq⟩ := exists_gridLine_eq hg a
    rw [heq]
    exact fits_saturate_sub (fits_toInt g) (toInt_ne_zero hg) (fits_toInt a) hn

theorem gridLine_gridLine (g a : Int32) : gridLine g (gridLine g a) = gridLine g a := by
  rcases Decidable.em (g = 0) with rfl | hg
  · rfl
  · obtain ⟨n, hn, heq⟩ := exists_gridLine_eq hg a
    obtain ⟨k, hk, heq'⟩ := exists_gridLine_eq hg (saturate n)
    rw [heq, heq']
    exact saturate_eq_of_nearest (fits_toInt a) hn hk

theorem subFits_snap (g : Int32) (v : Vec) : (v.snap g).SubFits v :=
  ⟨fits_gridLine_sub g v.x, fits_gridLine_sub g v.y⟩

theorem snap_snap (g : Int32) (v : Vec) : (v.snap g).snap g = v.snap g := by
  rw [snap, snap, gridLine_gridLine, gridLine_gridLine]

end Vec

theorem Action.plan_toGrid (size : Expr) (st : Station) :
    ((toGrid size).plan st).value =
      .go ((Motion.leg 0 (st.pos.snap (Vec.units (size.eval st).value) - st.pos)).map pure) := by
  unfold plan Motion.leg
  simp only [Noted.value_bind, Noted.value_pure]
  split <;> rfl

namespace Progress

variable {c : Cue} {s t : Progress} {size : Expr} {g : Int32}

theorem through_toGrid (hsize : Vec.units (size.eval (s.station c)).value = g) :
    Through s (s.perform c (.toGrid size)) (Motion.leg 0 (s.pos.snap g - s.pos)) := by
  have hplan := Action.plan_toGrid size (s.station c)
  rw [hsize] at hplan
  refine through_perform hplan (Motion.laid_leg _ _) ?_
  rw [Motion.beats_leg, ite_self]
  exact Nat.zero_le _

/-- A marcher comes to the grid at once, and stays there when it is sent again. -/
theorem perform_toGrid (hsize : Vec.units (size.eval (s.station c)).value = g)
    (ht : s.perform c (.toGrid size) = t) :
    Vec.NearestLine g s.pos.x t.pos.x ∧ Vec.NearestLine g s.pos.y t.pos.y ∧
      t.pos.SubFits s.pos ∧ s.pos.AddFits (t.pos - s.pos) ∧
      t.remaining = s.remaining ∧
      t.motions.toList = s.motions.toList ++ Motion.leg 0 (t.pos - s.pos) ∧
      t.markers.get? .outOfTime = s.markers.get? .outOfTime ∧
      t.overflowed = s.overflowed ∧ t.halted = s.halted ∧
      ∀ c' size', Vec.units (Expr.eval (t.station c') size').value = g →
        (t.perform c' (.toGrid size')).pos = t.pos ∧
          (t.perform c' (.toGrid size')).motions.toList = t.motions.toList := by
  have hthrough := through_toGrid hsize
  rw [ht] at hthrough
  have hpos : t.pos = s.pos.snap g := by
    rw [hthrough.pos, Motion.lead_leg, Vec.add_sub_of_fits (Vec.subFits_snap ..)]
  have hremaining := hthrough.remaining
  rw [Motion.beats_leg, ite_self, Nat.add_zero] at hremaining
  have hfits : t.pos.SubFits s.pos := by
    rw [hpos]
    exact Vec.subFits_snap ..
  rw [← hpos] at hthrough
  refine ⟨?_, ?_, hfits, Vec.addFits_sub hfits, hremaining, hthrough.motions, hthrough.outOfTime,
    hthrough.overflowed, hthrough.halted, ?_⟩
  · rw [hpos]
    exact Vec.nearestLine_gridLine ..
  · rw [hpos]
    exact Vec.nearestLine_gridLine ..
  · intro c' size' hsize'
    -- on a crossing already, the way to the nearest one is none
    have hagain := through_toGrid hsize'
    rw [hpos, Vec.snap_snap, Vec.sub_self, Motion.leg, if_pos rfl] at hagain
    exact ⟨hagain.pos, hagain.motions.trans (List.append_nil _)⟩

theorem perform_toGrid_edge :
    let cue : Cue := ⟨0, .plain, { position := 0 }, none, none⟩
    let s : Progress := .start ⟨2147483640, -24⟩ 0 .empty .empty
    ∃ t, s.perform cue (.toGrid (.number 3)) = t ∧ t.pos = ⟨2147483647, -48⟩ ∧
      t.remaining = 0 ∧ t.motions.toList = [.line 0 ⟨7, -24⟩] ∧
      (t.perform cue (.toGrid (.number 3))).motions.toList = t.motions.toList := by
  intro cue s
  have hsize (st : Station) : Vec.units ((Expr.number 3).eval st).value = 48 := by
    change Vec.units 3 = 48
    decide +kernel
  have hpos : (s.perform cue (.toGrid (.number 3))).pos = ⟨2147483647, -48⟩ := by decide +kernel
  obtain ⟨-, -, -, -, hremaining, hmotions, -, -, -, hagain⟩ :=
    perform_toGrid (hsize (s.station cue)) rfl
  refine ⟨_, rfl, hpos, hremaining, ?_, (hagain cue _ (hsize _)).2⟩
  rw [hmotions, hpos]
  rfl

end Progress
end FieldShow
