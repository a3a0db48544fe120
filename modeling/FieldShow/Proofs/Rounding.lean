import Mathlib.Algebra.Order.Floor.Semifield
import Mathlib.Data.Int.Log
import Mathlib.Data.Rat.Floor
import Mathlib.Tactic.FieldSimp
import Mathlib.Tactic.Linarith
import Mathlib.Tactic.NormNum
import Mathlib.Tactic.Positivity
import Mathlib.Tactic.Ring

/-!
Rounding to binary64. However a positive number comes about, as a product, as a quotient or from
an integer, rounding it depends on its value alone.
-/

namespace FieldShow.Numeric

open Float.Model Float.Model.UnpackedFloat

/-- A number at its last place: the integer part, the half that follows, and whether anything is
left below. -/
def cut (w : ℚ) : ExtendedMantissa where
  mantissa := ⌊w⌋₊
  roundBit := ⌊2 * w⌋₊ % 2 != 0
  stickyBit := decide ((⌊2 * w⌋₊ : ℚ) ≠ 2 * w)

theorem floor_eq_self_iff (w : ℚ) :
    (⌊w⌋₊ : ℚ) = w ↔ ⌊2 * w⌋₊ % 2 = 0 ∧ (⌊2 * w⌋₊ : ℚ) = 2 * w := by
  constructor
  · intro h
    have hdouble : ⌊2 * w⌋₊ = 2 * ⌊w⌋₊ := by
      rw [← h, Nat.floor_natCast, ← Nat.cast_ofNat, ← Nat.cast_mul, Nat.floor_natCast]
    rw [hdouble]
    refine ⟨Nat.mul_mod_right 2 _, ?_⟩
    rw [Nat.cast_mul, h, Nat.cast_ofNat]
  · rintro ⟨heven, hinteger⟩
    obtain ⟨k, hk⟩ := Nat.dvd_of_mod_eq_zero heven
    have hw : w = k := by
      rw [hk, Nat.cast_mul, Nat.cast_ofNat] at hinteger
      linarith
    rw [hw, Nat.floor_natCast]

theorem shiftRightOne_cut (w : ℚ) : (cut w).shiftRightOne = cut (w / 2) := by
  have hhalf : 2 * (w / 2) = w := by ring
  have hmantissa : ⌊w⌋₊ / 2 = ⌊w / 2⌋₊ := (Nat.floor_div_ofNat w 2).symm
  have hsticky : (⌊2 * w⌋₊ % 2 != 0 || decide ((⌊2 * w⌋₊ : ℚ) ≠ 2 * w)) =
      decide ((⌊w⌋₊ : ℚ) ≠ w) := by
    rw [Bool.eq_iff_iff, Bool.or_eq_true, bne_iff_ne, decide_eq_true_iff, decide_eq_true_iff,
      ← not_and_or, Ne, not_iff_not]
    exact (floor_eq_self_iff w).symm
  simp only [cut, ExtendedMantissa.shiftRightOne, hhalf, hmantissa, hsticky]

theorem shiftRight_cut (w : ℚ) (n : ℕ) : cut w >>> n = cut (w / 2 ^ n) := by
  show n.repeat ExtendedMantissa.shiftRightOne (cut w) = cut (w / 2 ^ n)
  induction n with
  | zero => simp [Nat.repeat]
  | succ n ih => rw [Nat.repeat, ih, shiftRightOne_cut, div_div, ← pow_succ]

/-! ## What is cut -/

theorem ofMantissa_exact (m : ℕ) : ExtendedMantissa.ofMantissaAndAccuracy m .exact = cut m := by
  have hfloor : ⌊(2 * m : ℚ)⌋₊ = 2 * m := by exact_mod_cast Nat.floor_natCast (2 * m)
  simp [ExtendedMantissa.ofMantissaAndAccuracy, cut, hfloor]

theorem cut_div (n : ℕ) {d : ℕ} (hd : 0 < d) :
    cut (n / d) = ⟨n / d, 2 * n / d % 2 != 0, decide (2 * n % d ≠ 0)⟩ := by
  have hdouble : (2 * (n / d) : ℚ) = (2 * n : ℕ) / d := by
    rw [Nat.cast_mul, Nat.cast_ofNat, mul_div_assoc]
  have hinteger : ((2 * n / d : ℕ) : ℚ) = (2 * n : ℕ) / d ↔ 2 * n % d = 0 := by
    rw [eq_div_iff (by positivity), ← Nat.cast_mul, Nat.cast_inj, ← Nat.dvd_iff_mod_eq_zero]
    exact ⟨Dvd.intro_left _, Nat.div_mul_cancel⟩
  simp only [cut, hdouble, Nat.floor_div_eq_div, hinteger, ne_eq]

theorem ofMantissa_fraction (n : ℕ) {d : ℕ} (hd : 0 < d) :
    ExtendedMantissa.ofMantissaAndAccuracy (n / d) (accuracyOfFraction (n % d) d) =
      cut (n / d) := by
  rw [cut_div n hd]
  have hsplit : 2 * n = 2 * (n % d) + d * (2 * (n / d)) := by
    rw [Nat.mul_left_comm, ← Nat.mul_add, Nat.mod_add_div]
  rw [hsplit, Nat.add_mul_div_left _ _ hd, Nat.add_mul_mod_self_left, Nat.add_mul_mod_self_left]
  have hrest : n % d < d := Nat.mod_lt n hd
  generalize n % d = r at *
  rcases Nat.lt_trichotomy (2 * r) d with hlt | heq | hgt
  · rw [Nat.div_eq_of_lt hlt, Nat.mod_eq_of_lt hlt]
    rcases Nat.eq_zero_or_pos r with rfl | hpos
    · simp [accuracyOfFraction, ExtendedMantissa.ofMantissaAndAccuracy]
    · have hcompare : compare (2 * r) d = .lt := Nat.compare_eq_lt.2 hlt
      have hne : r ≠ 0 := hpos.ne'
      simp [accuracyOfFraction, ExtendedMantissa.ofMantissaAndAccuracy, hcompare, hne]
  · have hcompare : compare (2 * r) d = .eq := Nat.compare_eq_eq.2 heq
    have hne : r ≠ 0 := by omega
    rw [heq, Nat.div_self hd, Nat.mod_self]
    rw [heq] at hcompare
    simp [accuracyOfFraction, ExtendedMantissa.ofMantissaAndAccuracy, hne, heq]
  · have hcompare : compare (2 * r) d = .gt := Nat.compare_eq_gt.2 hgt
    have hne : r ≠ 0 := by omega
    have hone : 2 * r / d = 1 := Nat.div_eq_of_lt_le (by omega) (by omega)
    have hleft : 2 * r % d ≠ 0 := by
      rw [Nat.mod_eq_sub_mod hgt.le, Nat.mod_eq_of_lt (by omega)]
      omega
    simp [accuracyOfFraction, ExtendedMantissa.ofMantissaAndAccuracy, hcompare, hne, hone, hleft]

theorem targetExponent_eq (t : ℤ) : Format.binary64.targetExponent t = max (t - 53) (-1074) := rfl

/-- The exponent of the last place that binary64 keeps of a positive number. -/
def lastPlace (v : ℚ) : ℤ := Format.binary64.targetExponent (Int.log 2 v + 1)

/-- A mantissa after rounding, which may have come to need one place more. -/
def carried (s : Sign) (m : ℕ) (e : ℤ) : UnpackedFloat :=
  let (em, e) := shiftToTargetExponent Format.binary64 m e .exact
  if h : em.mantissa = 0 then .zero s else .finite s em.mantissa e (Nat.pos_of_ne_zero h)

def rounded (s : Sign) (v : ℚ) : UnpackedFloat :=
  carried s (cut (v / 2 ^ lastPlace v)).roundedMantissa (lastPlace v)

theorem value_pos {m : ℕ} (hm : 0 < m) (e : ℤ) : (0 : ℚ) < m * 2 ^ e :=
  mul_pos (by exact_mod_cast hm) (zpow_pos two_pos e)

theorem mantissa_ofMantissa (m : ℕ) (a : Accuracy) :
    (ExtendedMantissa.ofMantissaAndAccuracy m a).mantissa = m := by
  rcases a with _ | (_ | _ | _) <;> rfl

theorem two_pow_log2_le {m : ℕ} (hm : 0 < m) (e : ℤ) : (2 : ℚ) ^ (m.log2 + e) ≤ m * 2 ^ e := by
  have hpow : (0 : ℚ) < 2 ^ e := zpow_pos two_pos e
  have hlow : (2 ^ m.log2 : ℚ) ≤ m := by exact_mod_cast Nat.log2_self_le hm.ne'
  rw [zpow_add₀ two_ne_zero, zpow_natCast]
  exact mul_le_mul_of_nonneg_right hlow hpow.le

theorem lt_two_pow_log2 (m : ℕ) (e : ℤ) : (m * 2 ^ e : ℚ) < 2 ^ (m.log2 + 1 + e) := by
  have hpow : (0 : ℚ) < 2 ^ e := zpow_pos two_pos e
  have hhigh : (m : ℚ) < 2 ^ (m.log2 + 1) := by exact_mod_cast Nat.lt_log2_self
  rw [zpow_add₀ two_ne_zero]
  exact mul_lt_mul_of_pos_right (by exact_mod_cast hhigh) hpow

theorem log_eq {v : ℚ} (hv : 0 < v) {m : ℕ} (hm : m ≠ 0) {e : ℤ} (hfloor : ⌊v / 2 ^ e⌋₊ = m) :
    Int.log 2 v = m.log2 + e := by
  have hpow : (0 : ℚ) < 2 ^ e := zpow_pos two_pos e
  obtain ⟨hlow, hhigh⟩ := (Nat.floor_eq_iff (div_pos hv hpow).le).1 hfloor
  rw [le_div_iff₀ hpow] at hlow
  rw [div_lt_iff₀ hpow] at hhigh
  have hbelow : (2 : ℚ) ^ (m.log2 + e : ℤ) ≤ v :=
    (two_pow_log2_le (Nat.pos_of_ne_zero hm) e).trans hlow
  have habove : v < (2 : ℚ) ^ (m.log2 + e + 1 : ℤ) := by
    rw [add_right_comm, zpow_add₀ two_ne_zero]
    refine hhigh.trans_le ?_
    gcongr
    exact_mod_cast Nat.lt_log2_self
  have hle := (Int.zpow_le_iff_le_log one_lt_two hv).1 (by exact_mod_cast hbelow)
  have hlt := (Int.lt_zpow_iff_log_lt one_lt_two hv).1 (by exact_mod_cast habove)
  omega

theorem shiftToTargetExponent_eq {v : ℚ} (hv : 0 < v) {m : ℕ} {e : ℤ} {a : Accuracy}
    (hcut : ExtendedMantissa.ofMantissaAndAccuracy m a = cut (v / 2 ^ e)) (he : e ≤ lastPlace v) :
    shiftToTargetExponent Format.binary64 m e a = (cut (v / 2 ^ lastPlace v), lastPlace v) := by
  have hfloor : ⌊v / 2 ^ e⌋₊ = m := by
    rw [← mantissa_ofMantissa m a, hcut]
    rfl
  have htarget : Format.binary64.targetExponent (totalExponent m e) = lastPlace v := by
    have hplace : lastPlace v = max (Int.log 2 v + 1 - 53) (-1074) := rfl
    rw [targetExponent_eq, totalExponent]
    rcases Nat.eq_zero_or_pos m with rfl | hpos
    · -- all of `v` lies below the cut, so no place above the lowest of all is kept
      have hlt : v < 2 ^ e := by
        rw [Nat.floor_eq_zero, div_lt_one (zpow_pos two_pos e)] at hfloor
        exact hfloor
      have hlog := (Int.lt_zpow_iff_log_lt one_lt_two hv).1 (by exact_mod_cast hlt)
      rw [Nat.log2_zero]
      omega
    · have hlog := log_eq hv hpos.ne' hfloor
      omega
  have hshift : e + ((lastPlace v - e).toNat : ℤ) = lastPlace v := by omega
  have hvalue : v / 2 ^ e / 2 ^ (lastPlace v - e).toNat = v / 2 ^ lastPlace v := by
    rw [div_div, ← zpow_natCast, ← zpow_add₀ two_ne_zero, hshift]
  rw [shiftToTargetExponent, htarget, shiftToExponent, hshift, hcut, shiftRight_cut, hvalue]

/-- Rounding a number that is cut at the last place or below depends on its value alone. -/
theorem roundWithAccuracy_eq {v : ℚ} (hv : 0 < v) {m : ℕ} {e : ℤ} {a : Accuracy} (s : Sign)
    (hcut : ExtendedMantissa.ofMantissaAndAccuracy m a = cut (v / 2 ^ e)) (he : e ≤ lastPlace v) :
    roundWithAccuracy Format.binary64 s m e a = rounded s v := by
  rw [roundWithAccuracy, shiftToTargetExponent_eq hv hcut he]
  rfl

theorem le_lastPlace {v : ℚ} (hv : 0 < v) {e : ℤ} (h : 2 ^ (e + 52) ≤ v) : e ≤ lastPlace v := by
  have hlog := (Int.zpow_le_iff_le_log one_lt_two hv).1 (by exact_mod_cast h)
  have hplace : lastPlace v = max (Int.log 2 v + 1 - 53) (-1074) := rfl
  omega

theorem roundWithAccuracy_exact {m : ℕ} (hm : 0 < m) {e : ℤ} (s : Sign)
    (he : e ≤ lastPlace (m * 2 ^ e)) :
    roundWithAccuracy Format.binary64 s m e .exact = rounded s (m * 2 ^ e) := by
  have hpow : (0 : ℚ) < 2 ^ e := zpow_pos two_pos e
  apply roundWithAccuracy_eq (value_pos hm e) s _ he
  rw [ofMantissa_exact, mul_div_cancel_right₀ _ hpow.ne']

theorem shiftToTargetExponent_self {m : ℕ} {e : ℤ} (a : Accuracy)
    (h : Format.binary64.targetExponent (totalExponent m e) = e) :
    shiftToTargetExponent Format.binary64 m e a =
      (ExtendedMantissa.ofMantissaAndAccuracy m a, e) := by
  have hshift : e + ((e - e).toNat : ℤ) = e := by omega
  have hnone : (e - e).toNat = 0 := by omega
  rw [shiftToTargetExponent, h, shiftToExponent, hshift, hnone]
  rfl

theorem carried_eq_finite {m : ℕ} (hm : 0 < m) {e : ℤ} (s : Sign)
    (h : Format.binary64.targetExponent (totalExponent m e) = e) :
    carried s m e = .finite s m e hm := by
  rw [carried, shiftToTargetExponent_self .exact h]
  exact dif_neg hm.ne'

theorem lastPlace_eq {m : ℕ} (hm : 0 < m) (e : ℤ) :
    lastPlace (m * 2 ^ e) = Format.binary64.targetExponent (totalExponent m e) := by
  have hpow : (0 : ℚ) < 2 ^ e := zpow_pos two_pos e
  have hfloor : ⌊(m * 2 ^ e / 2 ^ e : ℚ)⌋₊ = m := by
    rw [mul_div_cancel_right₀ _ hpow.ne', Nat.floor_natCast]
  rw [lastPlace, log_eq (value_pos hm e) hm.ne' hfloor, totalExponent,
    add_right_comm]

theorem rounded_eq_finite {m : ℕ} (hm : 0 < m) {e : ℤ} (s : Sign)
    (h : Format.binary64.targetExponent (totalExponent m e) = e) :
    rounded s (m * 2 ^ e) = .finite s m e hm := by
  have hpow : (0 : ℚ) < 2 ^ e := zpow_pos two_pos e
  have hquotient : (m * 2 ^ e / 2 ^ e : ℚ) = m := mul_div_cancel_right₀ _ hpow.ne'
  have hplace : lastPlace (m * 2 ^ e) = e := (lastPlace_eq hm e).trans h
  have hrounded : (cut (m : ℚ)).roundedMantissa = m := by
    rw [← ofMantissa_exact]
    rfl
  rw [rounded, hplace, hquotient, hrounded, carried_eq_finite hm s h]

/-! ## Operations -/

theorem shiftLeft_value (m k : ℕ) (e : ℤ) :
    ((m <<< k : ℕ) : ℚ) * 2 ^ (e - k) = m * 2 ^ e := by
  rw [Nat.shiftLeft_eq, Nat.cast_mul, Nat.cast_pow, Nat.cast_ofNat, mul_assoc, ← zpow_natCast,
    ← zpow_add₀ two_ne_zero]
  congr 2
  ring

theorem round_eq {m : ℕ} (hm : 0 < m) (s : Sign) (e : ℤ) :
    UnpackedFloat.round Format.binary64 s m e = rounded s (m * 2 ^ e) := by
  have hplace := lastPlace_eq hm e
  -- places are added below until the last one is the one that is kept
  rw [UnpackedFloat.round, ← hplace, decreaseExponent]
  have hvalue := shiftLeft_value m (e - lastPlace (m * 2 ^ e)).toNat e
  have hpos : 0 < m <<< (e - lastPlace (m * 2 ^ e)).toNat := Nat.shiftLeft_pos_iff.2 hm
  have hround := roundWithAccuracy_exact hpos (e := e - (e - lastPlace (m * 2 ^ e)).toNat) s
  rw [hvalue] at hround
  exact hround (by omega)

theorem mul_eq {m n : ℕ} (hm : 0 < m) (hn : 0 < n) (e f : ℤ) (s t : Sign) (hfull : 2 ^ 52 ≤ m) :
    UnpackedFloat.mul Format.binary64 (.finite s m e hm) (.finite t n f hn) =
      rounded (s * t) (m * 2 ^ e * (n * 2 ^ f)) := by
  have hvalue : ((m * n : ℕ) * 2 ^ (e + f) : ℚ) = m * 2 ^ e * (n * 2 ^ f) := by
    rw [Nat.cast_mul, zpow_add₀ two_ne_zero]
    ring
  have hplaces : (2 : ℚ) ^ (e + f + 52) ≤ (m * n : ℕ) * 2 ^ (e + f) := by
    have hpow : (0 : ℚ) < 2 ^ (e + f) := zpow_pos two_pos _
    have hlow : 2 ^ 52 ≤ m * n := hfull.trans (Nat.le_mul_of_pos_right m hn)
    rw [add_comm, zpow_add₀ two_ne_zero]
    exact mul_le_mul_of_nonneg_right (by exact_mod_cast hlow) hpow.le
  have hpos : 0 < m * n := Nat.mul_pos hm hn
  have hround := roundWithAccuracy_exact hpos (e := e + f) (s * t)
    (le_lastPlace (value_pos hpos _) hplaces)
  rw [hvalue] at hround
  exact hround

theorem div_eq {m n : ℕ} (hm : 0 < m) (hn : 0 < n) (e f : ℤ) (s t : Sign) :
    UnpackedFloat.div Format.binary64 (.finite s m e hm) (.finite t n f hn) =
      rounded (s / t) (m * 2 ^ e / (n * 2 ^ f)) := by
  have hdividend : (0 : ℚ) < m * 2 ^ e := value_pos hm e
  have hdivisor : (0 : ℚ) < n * 2 ^ f := value_pos hn f
  have hn' : (n : ℚ) ≠ 0 := by exact_mod_cast hn.ne'
  unfold UnpackedFloat.div divCore
  dsimp only
  generalize hgap : Format.binary64.targetExponent (totalExponent m e - totalExponent n f) = gap
  generalize hplace : min (e - f) gap = place
  refine roundWithAccuracy_eq (div_pos hdividend hdivisor) _ ?_ ?_
  · have hvalue := shiftLeft_value m (e - f - place).toNat e
    have hsplit : e - (e - f - place).toNat = f + place := by omega
    have hf : (2 : ℚ) ^ f ≠ 0 := (zpow_pos two_pos f).ne'
    have hp : (2 : ℚ) ^ place ≠ 0 := (zpow_pos two_pos place).ne'
    rw [hsplit, zpow_add₀ two_ne_zero] at hvalue
    rw [ofMantissa_fraction _ hn, ← hvalue]
    congr 1
    field_simp
  · -- the quotient of two leading places is at most one place off
    have hquotient : (2 : ℚ) ^ (totalExponent m e - totalExponent n f - 1) ≤
        m * 2 ^ e / (n * 2 ^ f) := by
      rw [le_div_iff₀ hdivisor]
      calc (2 : ℚ) ^ (totalExponent m e - totalExponent n f - 1) * (n * 2 ^ f)
          ≤ 2 ^ (totalExponent m e - totalExponent n f - 1) * 2 ^ totalExponent n f := by
            exact mul_le_mul_of_nonneg_left (lt_two_pow_log2 n f).le (zpow_pos two_pos _).le
        _ = 2 ^ (m.log2 + e) := by
            rw [← zpow_add₀ two_ne_zero, totalExponent, totalExponent]
            congr 1
            ring
        _ ≤ m * 2 ^ e := two_pow_log2_le hm e
    have hlog := (Int.zpow_le_iff_le_log one_lt_two (div_pos hdividend hdivisor)).1
      (by exact_mod_cast hquotient)
    rw [targetExponent_eq] at hgap
    rw [lastPlace, targetExponent_eq]
    omega

end FieldShow.Numeric
