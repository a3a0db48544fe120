import Mathlib
import FieldShow.Proofs.Lengths

/-!
Sums and differences of binary64 numbers. Each is that of the values, rounded once: it is off by at
most half of the last place that is kept, and exact where it has no more places than are kept.
-/

namespace FieldShow.Numeric

open Float.Model (Format UnpackedFloat totalExponent)
open Float.Model.UnpackedFloat

def nearestNat (w : ℚ) : ℕ := (cut w).roundedMantissa

variable {v w : ℚ} {n : ℕ}

theorem nearestNat_natCast (n : ℕ) : nearestNat n = n := by
  rw [nearestNat, ← ofMantissa_exact]
  rfl

theorem nearestNat_half (n : ℕ) : nearestNat (n + 1 / 2) = n + n % 2 := by
  have hdouble : 2 * ((n : ℚ) + 1 / 2) = (2 * n + 1 : ℕ) := by
    push_cast
    ring
  have hfloor : ⌊(n : ℚ) + 1 / 2⌋₊ = n := by
    rw [Nat.floor_eq_iff (by positivity)]
    constructor <;> linarith
  have hodd : (2 * n + 1) % 2 = 1 := by omega
  simp only [nearestNat, cut, hdouble, hfloor, Nat.floor_natCast, hodd, ne_eq, not_true_eq_false]
  rfl

theorem nearestNat_of_lt (hw : 0 ≤ w) (hlow : n - 1 / 2 < w) (hhigh : w < n + 1 / 2) :
    nearestNat w = n := by
  rcases le_or_gt (n : ℚ) w with hle | hgt
  · have hfloor : ⌊w⌋₊ = n := (Nat.floor_eq_iff hw).2 ⟨hle, by linarith⟩
    have hdouble : ⌊2 * w⌋₊ = 2 * n := by
      rw [Nat.floor_eq_iff (by positivity)]
      push_cast
      constructor <;> linarith
    have heven : 2 * n % 2 = 0 := Nat.mul_mod_right 2 n
    simp only [nearestNat, cut, hfloor, hdouble, heven]
    cases decide (((2 * n : ℕ) : ℚ) ≠ 2 * w) <;> rfl
  · -- more than half of a unit lies above the integer part
    obtain ⟨k, rfl⟩ : ∃ k, n = k + 1 := by
      refine Nat.exists_eq_succ_of_ne_zero ?_
      rintro rfl
      exact absurd hgt (not_lt.2 (by exact_mod_cast hw))
    push_cast at hlow hgt
    have hfloor : ⌊w⌋₊ = k := (Nat.floor_eq_iff hw).2 ⟨by linarith, hgt⟩
    have hdouble : ⌊2 * w⌋₊ = 2 * k + 1 := by
      rw [Nat.floor_eq_iff (by positivity)]
      push_cast
      constructor <;> linarith
    have hodd : (2 * k + 1) % 2 = 1 := by omega
    have hrest : ((2 * k + 1 : ℕ) : ℚ) ≠ 2 * w := by
      push_cast
      apply ne_of_lt
      linarith
    simp only [nearestNat, cut, hfloor, hdouble, hodd, decide_eq_true hrest]
    rfl

theorem abs_nearestNat_sub_le (hw : 0 ≤ w) : |(nearestNat w : ℚ) - w| ≤ 1 / 2 := by
  have hlow := Nat.floor_le hw
  have hhigh := Nat.lt_floor_add_one w
  rw [abs_le]
  rcases lt_trichotomy w (⌊w⌋₊ + 1 / 2) with hlt | heq | hgt
  · rw [nearestNat_of_lt hw (by linarith) hlt]
    constructor <;> linarith
  · have heven : (nearestNat w : ℚ) = ⌊w⌋₊ + (⌊w⌋₊ % 2 : ℕ) := by
      rw [heq, nearestNat_half, ← heq, Nat.cast_add]
    have hbit : ((⌊w⌋₊ % 2 : ℕ) : ℚ) ≤ 1 := by
      exact_mod_cast Nat.le_of_lt_succ (Nat.mod_lt ⌊w⌋₊ two_pos)
    have hbit₀ : (0 : ℚ) ≤ (⌊w⌋₊ % 2 : ℕ) := Nat.cast_nonneg _
    rw [heven]
    constructor <;> linarith
  · have hnext : nearestNat w = ⌊w⌋₊ + 1 := by
      apply nearestNat_of_lt hw <;> push_cast <;> linarith
    rw [hnext]
    push_cast
    constructor <;> linarith

/-! ## The places that are kept -/

theorem lastPlace_def (v : ℚ) : lastPlace v = max (Int.log 2 v + 1 - 53) (-1074) := rfl

theorem lt_two_pow_lastPlace (hv : 0 < v) : v < 2 ^ (lastPlace v + 53) := by
  have hlt : Int.log 2 v < lastPlace v + 53 := by
    rw [lastPlace_def]
    omega
  exact_mod_cast (Int.lt_zpow_iff_log_lt one_lt_two hv).2 hlt

theorem lastPlace_le (hv : 0 < v) {k : ℤ} (h : v < 2 ^ k) : lastPlace v ≤ max (k - 53) (-1074) := by
  have hlog := (Int.lt_zpow_iff_log_lt one_lt_two hv).1 (by exact_mod_cast h)
  rw [lastPlace_def]
  omega

theorem two_pow_le_of_lastPlace (hv : 0 < v) (h : -1074 < lastPlace v) :
    2 ^ (lastPlace v + 52) ≤ v := by
  have hle : lastPlace v + 52 ≤ Int.log 2 v := by
    rw [lastPlace_def] at h ⊢
    omega
  exact_mod_cast (Int.zpow_le_iff_le_log one_lt_two hv).2 hle

def placed (v : ℚ) : ℚ := nearestNat (v / 2 ^ lastPlace v) * 2 ^ lastPlace v

theorem abs_placed_sub_le (hv : 0 ≤ v) : |placed v - v| ≤ 2 ^ lastPlace v / 2 := by
  have hpow : (0 : ℚ) < 2 ^ lastPlace v := zpow_pos two_pos _
  have hself : v / 2 ^ lastPlace v * 2 ^ lastPlace v = v := div_mul_cancel₀ v hpow.ne'
  calc |placed v - v|
      = |nearestNat (v / 2 ^ lastPlace v) - v / 2 ^ lastPlace v| * 2 ^ lastPlace v := by
        rw [← abs_of_pos hpow, ← abs_mul, abs_of_pos hpow, sub_mul, hself, placed]
    _ ≤ 1 / 2 * 2 ^ lastPlace v :=
        mul_le_mul_of_nonneg_right (abs_nearestNat_sub_le (div_nonneg hv hpow.le)) hpow.le
    _ = 2 ^ lastPlace v / 2 := by ring

theorem placed_eq_self (hn : n < 2 ^ 53) {e : ℤ} (he : -1074 ≤ e) :
    placed (n * 2 ^ e) = n * 2 ^ e := by
  rcases Nat.eq_zero_or_pos n with rfl | hpos
  · have hzero := nearestNat_natCast 0
    rw [Nat.cast_zero] at hzero
    rw [placed, Nat.cast_zero, zero_mul, zero_div, hzero, Nat.cast_zero, zero_mul]
  · have hv := value_pos hpos e
    have hlt : (n * 2 ^ e : ℚ) < 2 ^ (53 + e) := by
      rw [zpow_add₀ two_ne_zero]
      exact mul_lt_mul_of_pos_right (by exact_mod_cast hn) (zpow_pos two_pos e)
    have hplace : lastPlace (n * 2 ^ e) ≤ e := by
      have := lastPlace_le hv hlt
      omega
    rw [placed]
    generalize lastPlace (n * 2 ^ e) = place at *
    obtain ⟨k, rfl⟩ := Int.exists_add_of_le hplace
    have hpow : (2 : ℚ) ^ place ≠ 0 := (zpow_pos two_pos place).ne'
    have hquotient : (n * 2 ^ (place + k) / 2 ^ place : ℚ) = (n * 2 ^ k : ℕ) := by
      rw [div_eq_iff hpow, zpow_add₀ two_ne_zero, zpow_natCast]
      push_cast
      ring
    rw [hquotient, nearestNat_natCast, ← hquotient, div_mul_cancel₀ _ hpow]

def valueOf : UnpackedFloat → Option ℚ
  | .zero _ => some 0
  | .finite s m e _ => some (s.apply m * 2 ^ e)
  | .infinity _ | .notANumber => none

variable {u : UnpackedFloat} {q p : ℚ} {x y : Float}

theorem rational?_eq (x : Float) : rational? x = valueOf x.toModel.unpack := by
  rw [rational?]
  rcases x.toModel.unpack with s | _ | s | ⟨_ | _, m, e, hm⟩ <;> simp [valueOf, Sign.apply]

theorem rational?_pack (h : Canonical u) : rational? (.ofModel (.pack u)) = valueOf u := by
  rw [rational?_eq]
  exact congrArg valueOf (unpack_pack h)

theorem nearestNat_lastPlace_le (hv : 0 < v) : nearestNat (v / 2 ^ lastPlace v) ≤ 2 ^ 53 := by
  have hpow : (0 : ℚ) < 2 ^ lastPlace v := zpow_pos two_pos _
  have hbelow : v / 2 ^ lastPlace v < 2 ^ 53 := by
    rw [div_lt_iff₀ hpow, mul_comm]
    have hlt := lt_two_pow_lastPlace hv
    rw [zpow_add₀ two_ne_zero] at hlt
    exact_mod_cast hlt
  have herror := (abs_le.1 (abs_nearestNat_sub_le (div_pos hv hpow).le)).2
  have hlt : (nearestNat (v / 2 ^ lastPlace v) : ℚ) < (2 ^ 53 + 1 : ℕ) := by
    push_cast
    linarith
  exact Nat.le_of_lt_succ (by exact_mod_cast hlt)

theorem le_nearestNat_lastPlace (hv : 0 < v) (h : -1074 < lastPlace v) :
    2 ^ 52 ≤ nearestNat (v / 2 ^ lastPlace v) := by
  have hpow : (0 : ℚ) < 2 ^ lastPlace v := zpow_pos two_pos _
  have habove : 2 ^ 52 ≤ v / 2 ^ lastPlace v := by
    rw [le_div_iff₀ hpow, mul_comm]
    have hle := two_pow_le_of_lastPlace hv h
    rw [zpow_add₀ two_ne_zero] at hle
    exact_mod_cast hle
  have herror := (abs_le.1 (abs_nearestNat_sub_le (div_pos hv hpow).le)).1
  have hlt : ((2 ^ 52 : ℕ) : ℚ) < nearestNat (v / 2 ^ lastPlace v) + 1 := by
    push_cast
    linarith
  exact Nat.le_of_lt_succ (by exact_mod_cast hlt)

theorem exponent_le_of_lt {k : ℕ} {e : ℤ} {j : ℕ} (hk : 2 ^ j ≤ k)
    (h : (k * 2 ^ e : ℚ) < 2 ^ 1024) : e + j < 1024 := by
  have hlow : (2 : ℚ) ^ (e + j) ≤ k * 2 ^ e := by
    rw [zpow_add₀ two_ne_zero, zpow_natCast, mul_comm]
    exact mul_le_mul_of_nonneg_right (by exact_mod_cast hk) (zpow_pos two_pos e).le
  have hlt : (2 : ℚ) ^ (e + j) < 2 ^ (1024 : ℤ) := hlow.trans_lt (by exact_mod_cast h)
  exact (zpow_lt_zpow_iff_right₀ one_lt_two).1 hlt

theorem carried_eq_carry {e : ℤ} (he : -1074 ≤ e) (s : Sign) :
    carried s (2 ^ 53) e = .finite s (2 ^ 52) (e + 1) (by decide) := by
  have hplace : lastPlace ((2 ^ 53 : ℕ) * 2 ^ e) = e + 1 := by
    rw [lastPlace_eq (by decide), targetExponent_eq, totalExponent, Nat.log2_two_pow]
    omega
  have hpow : (2 : ℚ) ^ e ≠ 0 := (zpow_pos two_pos e).ne'
  have hvalue : ((2 ^ 53 : ℕ) * 2 ^ e / 2 ^ (e + 1) : ℚ) = (2 ^ 52 : ℕ) := by
    rw [zpow_add₀ two_ne_zero, div_eq_iff (mul_ne_zero hpow (zpow_pos two_pos 1).ne')]
    push_cast
    ring
  have hcut : ExtendedMantissa.ofMantissaAndAccuracy (2 ^ 53) .exact =
      cut ((2 ^ 53 : ℕ) * 2 ^ e / 2 ^ e) := by
    rw [ofMantissa_exact, mul_div_cancel_right₀ _ hpow]
  rw [carried, shiftToTargetExponent_eq (value_pos (by decide) e) hcut (by omega), hplace, hvalue]
  simp only [cut, Nat.floor_natCast]
  rfl

theorem exists_canonical_carried {k : ℕ} {e : ℤ} (hk : 0 < k) (hhigh : k ≤ 2 ^ 53)
    (hlow : 2 ^ 52 ≤ k ∨ e = -1074) (he : -1074 ≤ e) (hsmall : (k * 2 ^ e : ℚ) < 2 ^ 1024)
    (s : Sign) : ∃ m f, ∃ hm : 0 < m, carried s k e = .finite s m f hm ∧
      Canonical (.finite s m f hm) ∧ (m * 2 ^ f : ℚ) = k * 2 ^ e := by
  rcases Nat.lt_or_eq_of_le hhigh with hlt | rfl
  · have hcanonical : Canonical (.finite s k e hk) := by
      rw [canonical_finite_iff]
      refine ⟨hlt, hlow, he, ?_⟩
      rcases hlow with hfull | rfl
      · have := exponent_le_of_lt hfull hsmall
        omega
      · decide
    exact ⟨k, e, hk, carried_eq_finite hk s hcanonical.1, hcanonical, rfl⟩
  · have hexponent := exponent_le_of_lt le_rfl hsmall
    refine ⟨2 ^ 52, e + 1, by decide, carried_eq_carry he s, ?_, ?_⟩
    · rw [canonical_finite_iff]
      omega
    · rw [zpow_add₀ two_ne_zero]
      push_cast
      ring

theorem rational?_rounded (hv : 0 < v) (hsmall : placed v < 2 ^ 1024) (s : Sign) :
    rational? (.ofModel (.pack (rounded s v))) =
      some (match s with | .positive => placed v | .negative => -placed v) := by
  have hplace : -1074 ≤ lastPlace v := by
    rw [lastPlace_def]
    omega
  have hhigh := nearestNat_lastPlace_le hv
  have hlow : 2 ^ 52 ≤ nearestNat (v / 2 ^ lastPlace v) ∨ lastPlace v = -1074 := by
    rcases hplace.lt_or_eq with hlt | heq
    · exact .inl (le_nearestNat_lastPlace hv hlt)
    · exact .inr heq.symm
  have hrounded : rounded s v = carried s (nearestNat (v / 2 ^ lastPlace v)) (lastPlace v) := rfl
  rw [hrounded]
  unfold placed at hsmall ⊢
  generalize nearestNat (v / 2 ^ lastPlace v) = k at *
  generalize lastPlace v = e at *
  rcases Nat.eq_zero_or_pos k with rfl | hk
  · obtain rfl : e = -1074 := hlow.resolve_left (by decide)
    have hzero : carried s 0 (-1074) = .zero s := by
      rw [carried, shiftToTargetExponent_self .exact (by decide)]
      rfl
    rw [hzero, rational?_pack (u := .zero s) trivial]
    cases s <;> simp [valueOf]
  · obtain ⟨m, f, hm, hfinite, hcanonical, hvalue⟩ :=
      exists_canonical_carried hk hhigh hlow hplace hsmall s
    rw [hfinite, rational?_pack hcanonical, ← hvalue]
    cases s <;> simp [valueOf, Sign.apply]

/-- The value next to a number that binary64 would hold if it had no limit. -/
def kept (v : ℚ) : ℚ := if v < 0 then -placed (-v) else placed v

theorem kept_of_pos (hv : 0 < v) : kept v = placed v := if_neg hv.not_gt

theorem kept_zero : kept 0 = 0 := by
  have hplaced := placed_eq_self (n := 0) (by decide) (e := 0) (by decide)
  rw [Nat.cast_zero, zero_mul] at hplaced
  rw [kept, if_neg (lt_irrefl 0), hplaced]

theorem kept_nonneg (hv : 0 ≤ v) : 0 ≤ kept v := by
  rw [kept, if_neg hv.not_gt]
  exact mul_nonneg (Nat.cast_nonneg _) (zpow_pos two_pos _).le

theorem kept_neg (v : ℚ) : kept (-v) = -kept v := by
  rcases lt_trichotomy v 0 with hneg | rfl | hpos
  · rw [kept_of_pos (neg_pos.2 hneg), kept, if_pos hneg, neg_neg]
  · rw [neg_zero, kept_zero, neg_zero]
  · rw [kept_of_pos hpos, kept, if_pos (neg_neg_iff_pos.2 hpos), neg_neg]

theorem kept_eq_self {n : ℤ} (hn : n.natAbs < 2 ^ 53) {e : ℤ} (he : -1074 ≤ e) :
    kept (n * 2 ^ e) = n * 2 ^ e := by
  have hkept {m : ℕ} (hm : m < 2 ^ 53) : kept (m * 2 ^ e) = m * 2 ^ e := by
    have hv : ¬(m * 2 ^ e : ℚ) < 0 := not_lt.2 (by positivity)
    rw [kept, if_neg hv, placed_eq_self hm he]
  obtain ⟨m, rfl | rfl⟩ := n.eq_nat_or_neg
  · exact hkept hn
  · rw [Int.natAbs_neg, Int.natAbs_natCast] at hn
    rw [Int.cast_neg, Int.cast_natCast, neg_mul, kept_neg, hkept hn]

theorem kept_intCast {n : ℤ} (hn : n.natAbs ≤ 2 ^ 53) : kept n = n := by
  rcases hn.lt_or_eq with hlt | heq
  · have hkept := kept_eq_self hlt (e := 0) (by decide)
    rwa [zpow_zero, mul_one] at hkept
  · -- a power of two needs one place only
    obtain ⟨m, rfl⟩ : ∃ m, n = m * 2 := ⟨n / 2, by omega⟩
    have hkept := kept_eq_self (n := m) (by omega) (e := 1) (by decide)
    rwa [zpow_one, ← Int.cast_ofNat, ← Int.cast_mul] at hkept

theorem abs_kept_sub_le {k : ℤ} (hk : -1021 ≤ k) (h : |v| < 2 ^ k) :
    |kept v - v| ≤ 2 ^ (k - 53) / 2 := by
  have hplaced {w : ℚ} (hw : 0 < w) (hlt : w < 2 ^ k) : |kept w - w| ≤ 2 ^ (k - 53) / 2 := by
    have hplace : lastPlace w ≤ k - 53 := by
      have := lastPlace_le hw hlt
      omega
    have hpow : (2 : ℚ) ^ lastPlace w ≤ 2 ^ (k - 53) := zpow_le_zpow_right₀ one_le_two hplace
    rw [kept_of_pos hw]
    exact (abs_placed_sub_le hw.le).trans (by linarith)
  rcases lt_trichotomy v 0 with hneg | rfl | hpos
  · rw [abs_of_neg hneg] at h
    have herror := hplaced (neg_pos.2 hneg) h
    rwa [kept_neg, ← neg_sub', abs_neg] at herror
  · rw [kept_zero, sub_zero, abs_zero]
    positivity
  · rw [abs_of_pos hpos] at h
    exact hplaced hpos h

theorem rational?_normalize {n e : ℤ} (h : |kept (n * 2 ^ e)| < 2 ^ 1024) :
    rational? (.ofModel (.pack (UnpackedFloat.normalize Format.binary64 n e .positive))) =
      some (kept (n * 2 ^ e)) := by
  rcases lt_trichotomy n 0 with hneg | rfl | hpos
  · obtain ⟨m, hm, rfl⟩ : ∃ m : ℕ, 0 < m ∧ n = -m := ⟨n.natAbs, by omega, by omega⟩
    have hcompare : compare (-m : ℤ) 0 = .lt := Int.compare_eq_lt.2 hneg
    have hv := value_pos hm e
    rw [Int.cast_neg, Int.cast_natCast, neg_mul, kept_neg, kept_of_pos hv] at h ⊢
    rw [abs_neg] at h
    rw [UnpackedFloat.normalize, hcompare]
    simp only [Int.neg_neg, Int.toNat_natCast]
    rw [round_eq hm, rational?_rounded hv (lt_of_abs_lt h)]
  · rw [Int.cast_zero, zero_mul, kept_zero]
    exact rational?_pack (u := .zero .positive) trivial
  · obtain ⟨m, rfl⟩ := Int.eq_ofNat_of_zero_le hpos.le
    have hcompare : compare (m : ℤ) 0 = .gt := Int.compare_eq_gt.2 hpos
    have hm : 0 < m := by exact_mod_cast hpos
    have hv := value_pos hm e
    rw [Int.cast_natCast, kept_of_pos hv] at h ⊢
    rw [UnpackedFloat.normalize, hcompare]
    simp only [Int.toNat_natCast]
    rw [round_eq hm, rational?_rounded hv (lt_of_abs_lt h)]

theorem canonical_toModel (x : Float) : Canonical x.toModel.unpack := canonical_unpack _

/-- The values that binary64 holds: the mantissa fits, and it is full where the last place is not
behind the point. -/
def Held (q : ℚ) : Prop :=
  ∃ n e : ℤ, n.natAbs < 2 ^ 53 ∧ (2 ^ 52 ≤ n.natAbs ∨ e ≤ 0) ∧ -1074 ≤ e ∧ e ≤ 971 ∧ q = n * 2 ^ e

theorem held_of_canonical (hu : Canonical u) (hq : valueOf u = some q) : Held q := by
  cases u with
  | notANumber | infinity s => cases hq
  | zero s =>
    obtain rfl := Option.some.inj hq
    exact ⟨0, 0, by decide, .inr le_rfl, by decide, by decide, by simp⟩
  | finite s m e hm =>
    obtain rfl := Option.some.inj hq
    obtain ⟨hhigh, hfull, hlow, hlarge⟩ := (canonical_finite_iff s hm).1 hu
    have habs : (s.apply m).natAbs = m := by
      cases s with
      | negative => exact (Int.natAbs_neg _).trans (Int.natAbs_natCast m)
      | positive => exact Int.natAbs_natCast m
    exact ⟨s.apply m, e, by omega, by omega, hlow, hlarge, rfl⟩

theorem held_rational? (hx : rational? x = some q) : Held q := by
  rw [rational?_eq] at hx
  exact held_of_canonical (canonical_toModel x) hx

theorem Held.kept_eq (h : Held q) : kept q = q := by
  obtain ⟨n, e, hn, -, he, -, rfl⟩ := h
  exact kept_eq_self hn he

/-! ## Sums and differences -/

theorem apply_shiftLeft (s : Sign) (m : ℕ) {e t : ℤ} (h : t ≤ e) :
    (s.apply (m <<< (e - t).toNat : ℕ) : ℚ) * 2 ^ t = s.apply m * 2 ^ e := by
  have hvalue := shiftLeft_value m (e - t).toNat e
  have hplace : e - (e - t).toNat = t := by omega
  rw [hplace] at hvalue
  cases s with
  | positive => exact hvalue
  | negative =>
    simp only [Sign.apply]
    rw [Int.cast_neg, Int.cast_neg, Int.cast_natCast, Int.cast_natCast, neg_mul, neg_mul, hvalue]

theorem rational?_pack_add {u v : UnpackedFloat} (hu : Canonical u) (hv : Canonical v)
    (hq : valueOf u = some q) (hp : valueOf v = some p) (h : |kept (q + p)| < 2 ^ 1024) :
    rational? (.ofModel (.pack (UnpackedFloat.add Format.binary64 u v))) = some (kept (q + p)) := by
  cases u with
  | notANumber | infinity s => cases hq
  | zero s =>
    obtain rfl := Option.some.inj hq
    rw [zero_add, (held_of_canonical hv hp).kept_eq]
    cases v with
    | notANumber | infinity t => cases hp
    | zero t =>
      rw [← hp]
      cases s <;> cases t <;> exact rational?_pack (u := .zero _) trivial
    | finite t m e hm => exact (rational?_pack hv).trans hp
  | finite s m e hm =>
    cases v with
    | notANumber | infinity t => cases hp
    | zero t =>
      obtain rfl := Option.some.inj hp
      rw [add_zero, (held_of_canonical hu hq).kept_eq]
      exact (rational?_pack hu).trans hq
    | finite t n f hn =>
      obtain rfl := Option.some.inj hq
      obtain rfl := Option.some.inj hp
      have hsum : ((s.apply (m <<< (e - min e f).toNat : ℕ) +
          t.apply (n <<< (f - min e f).toNat : ℕ) : ℤ) : ℚ) * 2 ^ min e f =
            s.apply m * 2 ^ e + t.apply n * 2 ^ f := by
        rw [Int.cast_add, add_mul, apply_shiftLeft s m (min_le_left e f),
          apply_shiftLeft t n (min_le_right e f)]
      rw [← hsum] at h ⊢
      exact rational?_normalize h

/-- A sum is the sum of the values, rounded once. -/
theorem rational?_add (hx : rational? x = some q) (hy : rational? y = some p)
    (h : |kept (q + p)| < 2 ^ 1024) : rational? (x + y) = some (kept (q + p)) := by
  rw [rational?_eq] at hx hy
  exact rational?_pack_add (canonical_toModel x) (canonical_toModel y) hx hy h

theorem canonical_neg (hu : Canonical u) : Canonical u.neg := by
  cases u <;> exact hu

theorem valueOf_neg (u : UnpackedFloat) : valueOf u.neg = (valueOf u).map (-·) := by
  cases u with
  | notANumber | infinity s => rfl
  | zero s => exact congrArg some neg_zero.symm
  | finite s m e hm =>
    cases s with
    | positive =>
      show some (((-(m : ℤ) : ℤ) : ℚ) * 2 ^ e) = some (-(((m : ℤ) : ℚ) * 2 ^ e))
      rw [Int.cast_neg, neg_mul]
    | negative =>
      show some (((m : ℤ) : ℚ) * 2 ^ e) = some (-(((-(m : ℤ) : ℤ) : ℚ) * 2 ^ e))
      rw [Int.cast_neg, neg_mul, neg_neg]

theorem rational?_neg (x : Float) : rational? (-x) = (rational? x).map (-·) := by
  rw [rational?_eq x, ← valueOf_neg]
  exact rational?_pack (canonical_neg (canonical_toModel x))

theorem unpacked_sub (u v : UnpackedFloat) :
    UnpackedFloat.sub Format.binary64 u v = UnpackedFloat.add Format.binary64 u v.neg := by
  cases u with
  | notANumber => rfl
  | infinity s | zero s => cases v <;> rfl
  | finite s m e hm =>
    cases v with
    | notANumber | infinity t | zero t => rfl
    | finite t n f hn =>
      have happly (k : ℕ) : s.apply (m <<< (e - min e f).toNat : ℕ) - t.apply k =
          s.apply (m <<< (e - min e f).toNat : ℕ) + (-t).apply k := by
        cases t with
        | positive => exact Int.sub_eq_add_neg
        | negative => exact Int.sub_neg ..
      show UnpackedFloat.normalize Format.binary64 (_ - _) _ _ = _
      rw [happly]
      rfl

theorem rational?_sub (hx : rational? x = some q) (hy : rational? y = some p)
    (h : |kept (q - p)| < 2 ^ 1024) : rational? (x - y) = some (kept (q - p)) := by
  rw [rational?_eq] at hx hy
  rw [sub_eq_add_neg] at h ⊢
  have hneg : valueOf y.toModel.unpack.neg = some (-p) := by
    rw [valueOf_neg, hy]
    rfl
  show rational? (.ofModel (.pack (UnpackedFloat.sub Format.binary64 _ _))) = _
  rw [unpacked_sub]
  exact rational?_pack_add (canonical_toModel x) (canonical_neg (canonical_toModel y)) hx hneg h

theorem rational?_ofInt {n : ℤ} (h : |kept n| < 2 ^ 1024) :
    rational? (.ofInt n) = some (kept n) := by
  have hnatural {m : ℕ} (hm : |kept m| < 2 ^ 1024) : rational? (.ofNat m) = some (kept m) := by
    rcases Nat.eq_zero_or_pos m with rfl | hpos
    · rw [Nat.cast_zero, kept_zero]
      rfl
    · have hv : (0 : ℚ) < m := by exact_mod_cast hpos
      rw [kept_of_pos hv] at hm ⊢
      have hread := ofScientific_eq hpos false (e := 0) (.inl (by decide))
      rw [if_neg Bool.false_ne_true, Int.natCast_zero, zpow_zero, mul_one] at hread
      show rational? (Float.ofScientific m false 0) = _
      rw [hread, rational?_rounded hv (lt_of_abs_lt hm)]
  cases n with
  | ofNat m => exact hnatural h
  | negSucc m =>
    rw [Int.cast_negSucc, kept_neg] at h ⊢
    rw [abs_neg] at h
    show rational? (-Float.ofNat (m + 1)) = _
    rw [rational?_neg, hnatural h]
    rfl

/-! ## Order -/

theorem value_lt_of_exponent_lt {m n : ℕ} {e f : ℤ} (hm : m < 2 ^ 53) (hn : 2 ^ 52 ≤ n)
    (h : e < f) : (m * 2 ^ e : ℚ) < n * 2 ^ f := by
  calc (m * 2 ^ e : ℚ) < 2 ^ 53 * 2 ^ e :=
        mul_lt_mul_of_pos_right (by exact_mod_cast hm) (zpow_pos two_pos e)
    _ = 2 ^ 52 * 2 ^ (e + 1) := by
        rw [zpow_add₀ two_ne_zero]
        ring
    _ ≤ 2 ^ 52 * 2 ^ f :=
        mul_le_mul_of_nonneg_left (zpow_le_zpow_right₀ one_le_two h) (by positivity)
    _ ≤ n * 2 ^ f := mul_le_mul_of_nonneg_right (by exact_mod_cast hn) (zpow_pos two_pos f).le

theorem compare_mantissa_iff {m n : ℕ} {e f : ℤ} {hm : 0 < m} {hn : 0 < n}
    (hx : Canonical (.finite .positive m e hm)) (hy : Canonical (.finite .positive n f hn)) :
    (compare e f).then (compare m n) = .lt ↔ (m * 2 ^ e : ℚ) < n * 2 ^ f := by
  rw [canonical_finite_iff] at hx hy
  rcases lt_trichotomy e f with hlt | rfl | hgt
  · have hcompare : compare e f = .lt := Int.compare_eq_lt.2 hlt
    rw [hcompare]
    exact iff_of_true rfl (value_lt_of_exponent_lt hx.1 (hy.2.1.resolve_right (by omega)) hlt)
  · have hcompare : compare e e = .eq := Int.compare_eq_eq.2 rfl
    rw [hcompare, mul_lt_mul_iff_left₀ (zpow_pos two_pos e), Nat.cast_lt]
    exact Nat.compare_eq_lt
  · have hcompare : compare e f = .gt := Int.compare_eq_gt.2 hgt
    have hlt := value_lt_of_exponent_lt (m := n) (n := m) hy.1 (hx.2.1.resolve_right (by omega)) hgt
    rw [hcompare]
    exact iff_of_false nofun hlt.not_gt

theorem lt_zero_iff_of_rational? (hx : rational? x = some q) : x < 0 ↔ q < 0 := by
  rw [rational?_eq] at hx
  rw [lt_zero_iff]
  cases hu : x.toModel.unpack with
  | notANumber | infinity s =>
    rw [hu] at hx
    cases hx
  | zero s =>
    rw [hu] at hx
    obtain rfl := Option.some.inj hx
    exact iff_of_false nofun (lt_irrefl 0)
  | finite s m e hm =>
    rw [hu] at hx
    obtain rfl := Option.some.inj hx
    have hv := value_pos hm e
    cases s with
    | positive => exact iff_of_false nofun hv.not_gt
    | negative =>
      refine iff_of_true rfl ?_
      simp only [Sign.apply]
      rwa [Int.cast_neg, Int.cast_natCast, neg_mul, neg_lt_zero]

theorem lt_abs_iff (hx : rational? x = some q) (hq : 0 < q) (hy : rational? y = some p) :
    x < y.abs ↔ q < |p| := by
  obtain ⟨m, e, hm, hunpack, rfl⟩ := exists_of_rational? hx hq
  have hcanonical := canonical_toModel x
  have hother := canonical_toModel y
  rw [rational?_eq] at hy
  rw [lt_iff_compare, unpack_toModel_abs, hunpack]
  rw [hunpack] at hcanonical
  cases hu : y.toModel.unpack with
  | notANumber | infinity s =>
    rw [hu] at hy
    cases hy
  | zero s =>
    rw [hu] at hy
    obtain rfl := Option.some.inj hy
    rw [abs_zero]
    exact iff_of_false nofun hq.not_gt
  | finite s n f hn =>
    rw [hu] at hy hother
    obtain rfl := Option.some.inj hy
    have hunsigned : Canonical (.finite .positive n f hn) := hother
    have habs : |(s.apply n : ℚ) * 2 ^ f| = n * 2 ^ f := by
      have hv := value_pos hn f
      cases s with
      | positive => exact abs_of_pos hv
      | negative =>
        simp only [Sign.apply]
        rw [Int.cast_neg, Int.cast_natCast, neg_mul, abs_neg, abs_of_pos hv]
    rw [habs, ← compare_mantissa_iff hcanonical hunsigned]
    exact Option.some_inj

end FieldShow.Numeric
