import FieldShow.Proofs.Halves
import FieldShow.Proofs.Saturation
import FieldShow.Routine.Evaluation

/-!
Counts. The integer that is taken for a number is next to it, or a mistake is noted, as long as it
is one of 32 bits. What is clamped is not compared with the number again.
-/

namespace FieldShow

open Numeric

/-- The value of the tolerance, the number next to a thousandth. -/
def slack : ℚ := 1152921504606847 / 2 ^ 60

theorem rational?_countTolerance : rational? countTolerance = some slack := by
  decide +kernel

theorem slack_pos : 0 < slack := by norm_num [slack]

theorem slack_lt : slack < 1 / 8 := by norm_num [slack]

def Near (x : Float) (n : ℤ) : Prop := ∃ q, rational? x = some q ∧ |q - n| ≤ slack

/-- No integer beyond 32 bits is next to the number, unless half a unit more is lost on it. -/
def InReach (x : Float) : Prop := x.isFinite ∧ ∀ n, Near x n → Lost n ∨ Fits n

section Finite

variable {x : Float} {q : ℚ} (hx : rational? x = some q)

include hx

theorem near_iff (n : ℤ) : Near x n ↔ |q - n| ≤ slack := by
  constructor
  · rintro ⟨p, hp, hclose⟩
    rw [hx] at hp
    obtain rfl := Option.some.inj hp
    exact hclose
  · exact fun hclose => ⟨q, hx, hclose⟩

theorem fractional_iff : .fractionalCount ∈ (toCount x).mistakes ↔ slack < |q - counted q| := by
  have hheld := held_rational? hx
  have hdifference := rational?_sub hx (rational?_floor_add_half hx) hheld.abs_kept_sub_counted_lt
  have hnoted : .fractionalCount ∈ (toCount x).mistakes ↔
      countTolerance < (x - floor (x + 0.5)).abs := by
    simp [toCount]
  rw [hnoted, lt_abs_iff rational?_countTolerance slack_pos hdifference,
    hheld.lt_abs_kept_sub_counted_iff slack_lt]

theorem value_toCount : (toCount x).value = saturate (counted q) := by
  have hwhole : whole (counted q : ℚ) = counted q := Int.tdiv_one _
  show toInt32 whole (floor (x + 0.5)) = _
  rw [toInt32, rational?_floor_add_half hx]
  exact congrArg saturate hwhole

theorem counted_of_near {n : ℤ} (h : Near x n) : counted q = n ↔ ¬Lost n :=
  (held_rational? hx).counted_iff (((near_iff hx n).1 h).trans_lt (slack_lt.trans (by norm_num)))

theorem toCount_iff : (.fractionalCount ∈ (toCount x).mistakes ∨ Near x (toCount x).value.toInt) ↔
    ∀ n, Near x n → Lost n ∨ Fits n := by
  rw [fractional_iff hx, value_toCount hx]
  constructor
  · intro h n hn
    by_cases hlost : Lost n
    · exact .inl hlost
    · obtain rfl := (counted_of_near hx hn).2 hlost
      have hclose := (near_iff hx _).1 hn
      rcases h with hfar | hclamped
      · exact absurd hclose hfar.not_ge
      · -- two integers within the tolerance of one number are the same
        have hsame : |(((saturate (counted q)).toInt : ℤ) : ℚ) - counted q| < 1 := by
          have hvalue := (near_iff hx _).1 hclamped
          have := abs_sub_le ((saturate (counted q)).toInt : ℚ) q (counted q)
          rw [abs_sub_comm] at hvalue
          linarith [slack_lt]
        rw [← intCast_eq_of_close hsame]
        exact .inr (fits_toInt _)
  · intro h
    rcases lt_or_ge slack |q - counted q| with hfar | hclose
    · exact .inl hfar
    · have hnear := (near_iff hx _).2 hclose
      have hfits := (h _ hnear).resolve_left ((counted_of_near hx hnear).1 rfl)
      rw [toInt_saturate_of_fits hfits]
      exact .inr hnear

end Finite

theorem toCount_ofInt {n : ℤ} (h : n.natAbs < 2 ^ 52) : toCount (.ofInt n) = pure (saturate n) := by
  have hkept : kept n = n := kept_intCast (by omega)
  have hlt : |kept n| < 2 ^ 1024 := by
    rw [hkept, abs_intCast]
    exact_mod_cast h.trans (Nat.pow_lt_pow_right (by decide) (by decide))
  have hvalue : rational? (.ofInt n) = some (n : ℚ) := by rw [rational?_ofInt hlt, hkept]
  have hcounted : counted n = n := counted_small h
  have hclose : .fractionalCount ∉ (toCount (.ofInt n)).mistakes := by
    rw [fractional_iff hvalue, hcounted, sub_self, abs_zero]
    exact slack_pos.not_gt
  have hmistakes : (toCount (.ofInt n)).mistakes = [] := by
    simpa [toCount] using hclose
  have hsaturated : (toCount (.ofInt n)).value = saturate n := by
    rw [value_toCount hvalue, hcounted]
  exact Noted.ext hsaturated hmistakes

theorem toCount_of_none {x : Float} (h : rational? x = none) :
    (toCount x).mistakes = [] ∧ ((toCount x).value < 0 ↔ x < 0) := by
  rw [rational?_eq] at h
  rw [← ofModel_pack_unpack x]
  cases hu : x.toModel.unpack with
  | notANumber => decide +kernel
  | infinity s => cases s <;> decide +kernel
  | zero s | finite s =>
    rw [hu] at h
    cases h

theorem isFinite_iff (x : Float) : x.isFinite ↔ ∃ q, rational? x = some q := by
  rw [rational?_eq]
  show x.toModel.unpack.isFinite ↔ _
  cases x.toModel.unpack with
  | notANumber | infinity s => exact iff_of_false nofun nofun
  | zero s | finite s => exact iff_of_true rfl ⟨_, rfl⟩

theorem near_toBeats_iff (x : Float) :
    (.fractionalCount ∈ (toBeats x).mistakes ∨ .negativeCount ∈ (toBeats x).mistakes ∨
      Near x (toBeats x).value) ↔
    (toCount x).value < 0 ∨ .fractionalCount ∈ (toCount x).mistakes ∨
      Near x (toCount x).value.toInt := by
  by_cases hneg : (toCount x).value < 0
  · have hnoted : .negativeCount ∈ (toBeats x).mistakes := by
      simp [toBeats, hneg]
    exact iff_of_true (.inr (.inl hnoted)) (.inl hneg)
  · have hnone : .negativeCount ∉ (toCount x).mistakes := by
      simp [toCount]
    have hmistakes : (toBeats x).mistakes = (toCount x).mistakes := by
      simp [toBeats, hneg]
    have hvalue : ((toBeats x).value : ℤ) = (toCount x).value.toInt := by
      have hsame : (toBeats x).value = (toCount x).value.toInt.toNat := by
        rw [toBeats, Noted.value_bind, if_neg hneg]
        rfl
      rw [hsame, Int.toNat_of_nonneg (Int32.le_iff_toInt_le.1 (Int32.not_lt.1 hneg))]
    rw [hmistakes, hvalue, or_iff_right hnone, or_iff_right hneg]

theorem value_toCount_neg_iff {x : Float} {q : ℚ} (hx : rational? x = some q) :
    (toCount x).value < 0 ↔ counted q < 0 := by
  have hzero : (0 : Int32).toInt = 0 := rfl
  rw [value_toCount hx, Int32.lt_iff_toInt_lt, toInt_saturate, hzero]
  omega

theorem toBeats_iff {x : Float} {q : ℚ} (hx : rational? x = some q) :
    ((toCount x).value < 0 ∨ ∀ n, Near x n → Lost n ∨ Fits n) ↔
      x < 0 ∨ ∀ n, Near x n → Lost n ∨ Fits n := by
  rw [value_toCount_neg_iff hx, lt_zero_iff_of_rational? hx]
  constructor
  · rintro (hneg | hreach)
    · refine .inl ?_
      by_contra hpos
      exact absurd (Int.floor_nonneg.2 (kept_nonneg (by linarith))) (not_le.2 hneg)
    · exact .inr hreach
  · rintro (hneg | hreach)
    · rw [or_iff_not_imp_left]
      intro hpos n hn
      by_cases hlost : Lost n
      · exact .inl hlost
      · -- an integer next to a negative number that is not negative itself is zero
        obtain rfl := (counted_of_near hx hn).2 hlost
        have hclose := abs_le.1 ((near_iff hx _).1 hn)
        have hone : ((counted q : ℤ) : ℚ) < 1 := by linarith [slack_lt]
        have hlt : counted q < 1 := by exact_mod_cast hone
        exact .inr ⟨by omega, by omega⟩
    · exact .inr hreach

/-- A count is within the tolerance of the number it is taken for, or a mistake is noted, exactly
where the number is finite and no integer beyond 32 bits is next to it, apart from those on which
half a unit more is lost. For beats also all that is below zero is noted. -/
theorem near_or_noted_iff (x : Float) :
    ((.fractionalCount ∈ (toCount x).mistakes ∨ Near x (toCount x).value.toInt) ↔ InReach x) ∧
    ((.fractionalCount ∈ (toBeats x).mistakes ∨ .negativeCount ∈ (toBeats x).mistakes ∨
      Near x (toBeats x).value) ↔ x < 0 ∨ InReach x) := by
  rw [near_toBeats_iff, InReach, isFinite_iff]
  cases hx : rational? x with
  | none =>
    obtain ⟨hmistakes, hnegative⟩ := toCount_of_none hx
    have hnear (n : ℤ) : ¬Near x n := by
      rintro ⟨q, hq, -⟩
      rw [hx] at hq
      cases hq
    rw [hmistakes, hnegative]
    simp [hnear]
  | some q =>
    rw [toCount_iff hx, toBeats_iff hx]
    simp

/-- Ten thousand million is clamped, and nothing is noted. -/
theorem clamped_unnoted :
    ¬(.fractionalCount ∈ (toCount 10000000000).mistakes ∨
      Near 10000000000 (toCount 10000000000).value.toInt) ∧
    ¬(.fractionalCount ∈ (toBeats 10000000000).mistakes ∨
      .negativeCount ∈ (toBeats 10000000000).mistakes ∨
      Near 10000000000 (toBeats 10000000000).value) := by
  have hvalue : rational? 10000000000 = some 10000000000 := by decide +kernel
  have hcount : (toCount 10000000000).mistakes = [] ∧
      (toCount 10000000000).value.toInt = 2147483647 := by decide +kernel
  have hbeats : (toBeats 10000000000).mistakes = [] ∧ (toBeats 10000000000).value = 2147483647 := by
    decide +kernel
  have hfar : ¬Near 10000000000 2147483647 := by
    rw [near_iff hvalue]
    norm_num [slack]
  rw [hcount.1, hcount.2, hbeats.1, hbeats.2]
  simp only [List.not_mem_nil, false_or]
  exact ⟨hfar, hfar⟩

end FieldShow
