import FieldShow.Proofs.Sums

/-!
The nearest integer. It is found by adding half a unit and cutting what is behind the point; both
the sum and the distance to the integer are rounded. An integer close by is found in spite of that,
except where half a unit is half of the last place.
-/

namespace FieldShow.Numeric

variable {v q : ℚ} {x : Float}

/-! ## Half a unit more -/

theorem lastPlace_of_mem {e : ℤ} (he : -1074 ≤ e) (hlow : 2 ^ 52 * 2 ^ e ≤ v)
    (hhigh : v < 2 ^ 53 * 2 ^ e) : lastPlace v = e := by
  have hv : 0 < v := (by positivity : (0 : ℚ) < 2 ^ 52 * 2 ^ e).trans_le hlow
  rw [← zpow_ofNat, ← zpow_add₀ two_ne_zero] at hlow hhigh
  have hle := lastPlace_le hv hhigh
  rw [add_comm] at hlow
  have hge := le_lastPlace hv hlow
  omega

theorem placed_add_half {n : ℕ} (hlow : 2 ^ 52 ≤ n) (hhigh : n < 2 ^ 53) :
    placed (n + 1 / 2) = n + (n % 2 : ℕ) := by
  -- without a place behind the point a half goes to the even neighbour
  have hlow' : (2 ^ 52 : ℚ) ≤ n := by exact_mod_cast hlow
  have hhigh' : (n + 1 : ℚ) ≤ 2 ^ 53 := by exact_mod_cast hhigh
  have hplace : lastPlace (n + 1 / 2) = 0 := by
    apply lastPlace_of_mem (by decide) <;> rw [zpow_zero, mul_one] <;> linarith
  rw [placed, hplace, zpow_zero, div_one, mul_one, nearestNat_half, Nat.cast_add]

theorem placed_of_close {n : ℕ} {e : ℤ} (he : 1 ≤ e) (hclose : |v - n * 2 ^ e| ≤ 1 / 2)
    (hlow : 2 ^ 52 * 2 ^ e ≤ v) (hhigh : v < 2 ^ 53 * 2 ^ e) : placed v = n * 2 ^ e := by
  -- a half does not count where the last place is above the point
  have hpow : (0 : ℚ) < 2 ^ e := zpow_pos two_pos e
  have htwo : (2 : ℚ) ^ (1 : ℤ) ≤ 2 ^ e := zpow_le_zpow_right₀ one_le_two he
  rw [zpow_one] at htwo
  have hv : 0 < v := (by positivity : (0 : ℚ) < 2 ^ 52 * 2 ^ e).trans_le hlow
  have hquotient : |v / 2 ^ e - n| < 1 / 2 := by
    rw [← mul_lt_mul_iff_left₀ hpow, ← abs_of_pos hpow, ← abs_mul, abs_of_pos hpow, sub_mul,
      div_mul_cancel₀ v hpow.ne']
    linarith
  obtain ⟨hbelow, habove⟩ := abs_lt.1 hquotient
  have hnearest : nearestNat (v / 2 ^ e) = n :=
    nearestNat_of_lt (div_pos hv hpow).le (by linarith) (by linarith)
  rw [placed, lastPlace_of_mem (by omega) hlow hhigh, hnearest]

theorem placed_large_add_half {n : ℕ} {e : ℤ} (he : 1 ≤ e) (hlow : 2 ^ 52 ≤ n)
    (hhigh : n < 2 ^ 53) : placed (n * 2 ^ e + 1 / 2) = n * 2 ^ e := by
  have hpow : (1 : ℚ) ≤ 2 ^ e := one_le_zpow₀ one_le_two (by omega)
  have hlow' : (2 : ℚ) ^ 52 * 2 ^ e ≤ n * 2 ^ e :=
    mul_le_mul_of_nonneg_right (by exact_mod_cast hlow) (by positivity)
  have hhigh' : (n + 1 : ℚ) * 2 ^ e ≤ 2 ^ 53 * 2 ^ e :=
    mul_le_mul_of_nonneg_right (by exact_mod_cast hhigh) (by positivity)
  apply placed_of_close he
  · rw [add_sub_cancel_left, abs_of_pos (by positivity)]
  · linarith
  · linarith

theorem placed_large_sub_half {n : ℕ} {e : ℤ} (he : 1 ≤ e) (hlow : 2 ^ 52 < n)
    (hhigh : n ≤ 2 ^ 53) : placed (n * 2 ^ e - 1 / 2) = n * 2 ^ e := by
  -- the places below a power of two are finer than those above
  have hpow : (1 : ℚ) ≤ 2 ^ e := one_le_zpow₀ one_le_two (by omega)
  have hlow' : ((2 : ℚ) ^ 52 + 1) * 2 ^ e ≤ n * 2 ^ e :=
    mul_le_mul_of_nonneg_right (by exact_mod_cast hlow) (by positivity)
  have hhigh' : (n : ℚ) * 2 ^ e ≤ 2 ^ 53 * 2 ^ e :=
    mul_le_mul_of_nonneg_right (by exact_mod_cast hhigh) (by positivity)
  apply placed_of_close he
  · rw [sub_sub_cancel_left, abs_neg, abs_of_pos (by positivity)]
  · linarith
  · linarith

theorem placed_power_sub_half {e : ℤ} (he : 1 ≤ e) :
    placed ((2 ^ 52 : ℕ) * 2 ^ e - 1 / 2) = (2 ^ 52 : ℕ) * 2 ^ e := by
  rcases he.eq_or_lt with rfl | hlt
  · -- two neighbours are as far away, and the power is the even one
    have hplaced := placed_add_half (n := 2 ^ 53 - 1) (by decide) (by decide)
    have hsplit : (((2 ^ 52 : ℕ) : ℚ) * 2 ^ (1 : ℤ) - 1 / 2) = (2 ^ 53 - 1 : ℕ) + 1 / 2 := by
      norm_num
    rw [hsplit, hplaced]
    norm_num
  · have hplaced := placed_large_sub_half (n := 2 ^ 53) (e := e - 1) (by omega) (by decide) le_rfl
    have hvalue : ((2 ^ 53 : ℕ) : ℚ) * 2 ^ (e - 1) = (2 ^ 52 : ℕ) * 2 ^ e := by
      rw [zpow_sub₀ two_ne_zero]
      push_cast
      ring
    rwa [hvalue] at hplaced

theorem kept_large_add_half {n e : ℤ} (he : 1 ≤ e) (hlow : 2 ^ 52 ≤ n.natAbs)
    (hhigh : n.natAbs < 2 ^ 53) : kept (n * 2 ^ e + 1 / 2) = n * 2 ^ e := by
  have hpow : (1 : ℚ) ≤ 2 ^ e := one_le_zpow₀ one_le_two (by omega)
  obtain ⟨k, rfl | rfl⟩ := n.eq_nat_or_neg
  · rw [Int.natAbs_natCast] at hlow hhigh
    rw [Int.cast_natCast, kept_of_pos (by positivity), placed_large_add_half he hlow hhigh]
  · rw [Int.natAbs_neg, Int.natAbs_natCast] at hlow hhigh
    have hpos : (0 : ℚ) < k * 2 ^ e - 1 / 2 := by
      have hone : (1 : ℚ) ≤ k := by exact_mod_cast (Nat.one_le_two_pow.trans hlow)
      have hle := mul_le_mul hone hpow zero_le_one (by positivity)
      linarith
    have hplaced : placed (k * 2 ^ e - 1 / 2) = k * 2 ^ e := by
      rcases hlow.lt_or_eq with hlt | rfl
      · exact placed_large_sub_half he hlt hhigh.le
      · exact placed_power_sub_half he
    rw [Int.cast_neg, Int.cast_natCast, neg_mul, neg_add_eq_sub, ← neg_sub, kept_neg,
      kept_of_pos hpos, hplaced]

/-! ## The integer that is taken -/

/-- The integer that is taken for a value, before it is clamped. -/
def counted (q : ℚ) : ℤ := ⌊kept (q + 1 / 2)⌋

/-- An odd integer with all its places before the point. Half a unit more is not held, and leads to
the even neighbour. -/
def Lost (n : ℤ) : Prop := 2 ^ 52 ≤ n.natAbs ∧ n.natAbs < 2 ^ 53 ∧ n % 2 = 1

theorem abs_intCast (n : ℤ) : |(n : ℚ)| = n.natAbs := by
  rw [← Int.cast_abs, Int.abs_eq_natAbs, Int.cast_natCast]

theorem abs_mantissa_add_one_le {n : ℤ} (hn : n.natAbs < 2 ^ 53) : |(n : ℚ)| + 1 ≤ 2 ^ 53 := by
  rw [abs_intCast]
  exact_mod_cast hn

theorem lt_exponent {n e k : ℤ} (hn : n.natAbs < 2 ^ 53)
    (h : 2 ^ 53 * 2 ^ k ≤ |(n * 2 ^ e : ℚ)|) : k < e := by
  by_contra hle
  have hmantissa := abs_mantissa_add_one_le hn
  have hpos : (0 : ℚ) < 2 ^ e := zpow_pos two_pos e
  have hpow : (2 : ℚ) ^ e ≤ 2 ^ k := zpow_le_zpow_right₀ one_le_two (by omega)
  have hvalue : |(n : ℚ)| * 2 ^ e < 2 ^ 53 * 2 ^ k :=
    mul_lt_mul_of_lt_of_le_of_nonneg_of_pos (by linarith) hpow (abs_nonneg _) (hpos.trans_le hpow)
  rw [abs_mul, abs_of_pos hpos] at h
  exact absurd h hvalue.not_ge

theorem Held.kept_add_half {n : ℤ} (h : Held n) (hlarge : 2 ^ 53 ≤ n.natAbs) :
    kept (n + 1 / 2) = n := by
  obtain ⟨m, e, hm, hfull, -, -, hn⟩ := h
  have habs : (2 : ℚ) ^ 53 * 2 ^ (0 : ℤ) ≤ |(n : ℚ)| := by
    rw [abs_intCast, zpow_zero, mul_one]
    exact_mod_cast hlarge
  rw [hn] at habs
  have he : 1 ≤ e := lt_exponent hm habs
  rw [hn, kept_large_add_half he (hfull.resolve_right (by omega)) hm]

theorem counted_small {n : ℤ} (h : n.natAbs < 2 ^ 52) : counted n = n := by
  have hkept := kept_eq_self (n := 2 * n + 1) (by omega) (e := -1) (by decide)
  have hhalf : (n : ℚ) + 1 / 2 = (2 * n + 1 : ℤ) * 2 ^ (-1 : ℤ) := by
    rw [zpow_neg_one]
    push_cast
    ring
  rw [counted, hhalf, hkept, ← hhalf, Int.floor_eq_iff]
  constructor <;> linarith

theorem counted_middle {n : ℤ} (hlow : 2 ^ 52 ≤ n.natAbs) (hhigh : n.natAbs < 2 ^ 53) :
    counted n = n + n % 2 := by
  -- with all places before the point the even neighbour is taken
  obtain ⟨k, rfl | rfl⟩ := n.eq_nat_or_neg
  · rw [Int.natAbs_natCast] at hlow hhigh
    rw [counted, Int.cast_natCast, kept_of_pos (by positivity), placed_add_half hlow hhigh,
      ← Nat.cast_add, Int.floor_natCast]
    omega
  · rw [Int.natAbs_neg, Int.natAbs_natCast] at hlow hhigh
    rcases hlow.lt_or_eq with hlt | rfl
    · obtain ⟨j, rfl⟩ : ∃ j, k = j + 1 := Nat.exists_eq_succ_of_ne_zero (by omega)
      have hplaced := placed_add_half (n := j) (by omega) (by omega)
      have hneg : (((-(j + 1 : ℕ) : ℤ) : ℚ) + 1 / 2) = -(j + 1 / 2) := by
        push_cast
        ring
      rw [counted, hneg, kept_neg, kept_of_pos (by positivity), hplaced, ← Nat.cast_add,
        ← Int.cast_natCast, ← Int.cast_neg, Int.floor_intCast]
      omega
    · have hkept := kept_eq_self (n := -(2 ^ 53 - 1)) (by decide) (e := -1) (by decide)
      have hhalf : (((-(2 ^ 52 : ℕ) : ℤ) : ℚ) + 1 / 2) = (-(2 ^ 53 - 1) : ℤ) * 2 ^ (-1 : ℤ) := by
        norm_num
      rw [counted, hhalf, hkept, ← hhalf]
      norm_num

theorem Held.counted_intCast_iff {n : ℤ} (h : Held n) : counted n = n ↔ ¬Lost n := by
  unfold Lost
  rcases Nat.lt_or_ge n.natAbs (2 ^ 52) with hsmall | hlow
  · have hcounted := counted_small hsmall
    omega
  · rcases Nat.lt_or_ge n.natAbs (2 ^ 53) with hmiddle | hlarge
    · have hcounted := counted_middle hlow hmiddle
      omega
    · have hcounted : counted n = n := by
        rw [counted, h.kept_add_half hlarge, Int.floor_intCast]
      omega

theorem Held.abs_add_lt (h : Held q) : |q| + 4 < 2 ^ 1024 := by
  obtain ⟨n, e, hn, -, -, he, rfl⟩ := h
  have hmantissa := abs_mantissa_add_one_le hn
  have hpos : (0 : ℚ) < 2 ^ e := zpow_pos two_pos e
  have hpow : (2 : ℚ) ^ e ≤ 2 ^ (971 : ℤ) := zpow_le_zpow_right₀ one_le_two he
  have hplace : (4 : ℚ) < 2 ^ 971 := by
    calc (4 : ℚ) < 2 ^ 3 := by norm_num
      _ ≤ 2 ^ 971 := pow_le_pow_right₀ one_le_two (by decide)
  have hlimit : (2 : ℚ) ^ 1024 = 2 ^ 53 * 2 ^ 971 := pow_add 2 53 971
  have hvalue : |(n : ℚ) * 2 ^ e| ≤ (2 ^ 53 - 1) * 2 ^ 971 := by
    rw [abs_mul, abs_of_pos hpos]
    exact mul_le_mul (by linarith) hpow hpos.le (by norm_num)
  rw [hlimit]
  generalize (2 : ℚ) ^ 971 = place at hplace hvalue ⊢
  linarith

theorem Held.small_or_integer (h : Held q) :
    |q| + 1 ≤ 2 ^ 53 ∨ ∃ n : ℤ, q = n ∧ 2 ^ 53 ≤ n.natAbs := by
  obtain ⟨n, e, hn, hfull, -, -, rfl⟩ := h
  have hpos : (0 : ℚ) < 2 ^ e := zpow_pos two_pos e
  rcases le_or_gt e 0 with hle | hgt
  · have hpow : (2 : ℚ) ^ e ≤ 1 := zpow_le_one_of_nonpos₀ one_le_two hle
    have hmantissa := abs_mantissa_add_one_le hn
    have hvalue := mul_le_of_le_one_right (abs_nonneg (n : ℚ)) hpow
    rw [abs_mul, abs_of_pos hpos]
    exact .inl (by linarith)
  · obtain ⟨k, rfl⟩ : ∃ k : ℕ, e = (k + 1 : ℕ) := ⟨e.toNat - 1, by omega⟩
    refine .inr ⟨n * 2 ^ (k + 1), by push_cast; rfl, ?_⟩
    rw [Int.natAbs_mul, Int.natAbs_pow]
    calc 2 ^ 53 = 2 ^ 52 * 2 ^ 1 := rfl
      _ ≤ n.natAbs * 2 ^ (k + 1) :=
        Nat.mul_le_mul (hfull.resolve_right (by omega)) (Nat.pow_le_pow_right two_pos (by omega))

theorem abs_kept_half_sub_le {k : ℤ} (hk : -1021 ≤ k) (h : |q| + 1 / 2 < 2 ^ k) :
    |kept (q + 1 / 2) - (q + 1 / 2)| ≤ 2 ^ (k - 53) / 2 := by
  have hhalf : |(1 / 2 : ℚ)| = 1 / 2 := abs_of_pos one_half_pos
  have hsum := abs_add_le q (1 / 2)
  rw [hhalf] at hsum
  exact abs_kept_sub_le hk (hsum.trans_lt h)

theorem Held.abs_kept_add_half_sub_le (h : Held q) : |kept (q + 1 / 2) - q| ≤ 1 := by
  -- the half and the rounding together are not more than one
  rcases h.small_or_integer with hsmall | ⟨n, rfl, hlarge⟩
  · have hlt : |q| + 1 / 2 < 2 ^ (53 : ℤ) := by
      have hpow : (2 : ℚ) ^ (53 : ℤ) = 2 ^ 53 := rfl
      linarith
    have herror := abs_kept_half_sub_le (by decide) hlt
    have hpow : (2 : ℚ) ^ ((53 : ℤ) - 53) / 2 = 1 / 2 := by norm_num
    rw [hpow, abs_le] at herror
    rw [abs_le]
    constructor <;> linarith
  · rw [h.kept_add_half hlarge, sub_self, abs_zero]
    exact zero_le_one

theorem intCast_eq_of_close {a b : ℤ} (h : |(a : ℚ) - b| < 1) : a = b := by
  have hint : |a - b| < 1 := by exact_mod_cast h
  exact sub_eq_zero.1 (Int.abs_lt_one_iff.1 hint)

theorem abs_sub_intCast_le {n : ℤ} (hclose : |q - n| ≤ 1 / 4) : |q - n| ≤ |q| := by
  rcases eq_or_ne n 0 with rfl | hne
  · rw [Int.cast_zero, sub_zero]
  · have hone : (1 : ℚ) ≤ |(n : ℚ)| := by exact_mod_cast Int.one_le_abs hne
    have hnear := abs_sub_abs_le_abs_sub (n : ℚ) q
    rw [abs_sub_comm] at hnear
    linarith

theorem Held.kept_sub {n : ℤ} (h : Held q) (hclose : |q - n| ≤ 1 / 4) : kept (q - n) = q - n := by
  -- a small difference to an integer has no more places than the number itself
  obtain ⟨m, e, hm, -, he, -, hq⟩ := h
  rcases le_or_gt 0 e with hle | hneg
  · obtain ⟨k, rfl⟩ := Int.eq_ofNat_of_zero_le hle
    obtain rfl : q = (m * 2 ^ k : ℤ) := by
      rw [hq]
      push_cast
      rfl
    have heq := intCast_eq_of_close (hclose.trans_lt (by norm_num))
    rw [heq, sub_self, kept_zero]
  · obtain ⟨k, rfl⟩ : ∃ k : ℕ, e = -k := ⟨e.natAbs, by omega⟩
    have hpow : (0 : ℚ) < 2 ^ (-k : ℤ) := zpow_pos two_pos _
    have hdifference : q - n = (m - n * 2 ^ k : ℤ) * 2 ^ (-k : ℤ) := by
      rw [hq, zpow_neg, zpow_natCast]
      push_cast
      field_simp
    have hsmall := abs_sub_intCast_le hclose
    rw [hdifference]
    refine kept_eq_self (lt_of_le_of_lt ?_ hm) he
    rw [hdifference, hq, abs_mul, abs_mul] at hsmall
    have hmantissa := le_of_mul_le_mul_right hsmall (abs_pos.2 hpow.ne')
    rw [abs_intCast, abs_intCast] at hmantissa
    exact_mod_cast hmantissa

theorem Held.eq_of_close {n : ℤ} (h : Held q) (hlarge : 2 ^ 51 ≤ |q|) (hclose : |q - n| < 1 / 2) :
    q = n := by
  obtain ⟨m, e, hm, -, -, -, hq⟩ := h
  have hlimit : (2 : ℚ) ^ 51 = 2 ^ 53 * 2 ^ (-2 : ℤ) := by norm_num
  rw [hlimit, hq] at hlarge
  have he : 0 ≤ e + 1 := by
    have := lt_exponent hm hlarge
    omega
  obtain ⟨k, hk⟩ := Int.eq_ofNat_of_zero_le he
  have hdouble : 2 * q = (m * 2 ^ k : ℤ) := by
    have hplace : (2 : ℚ) ^ (e + 1) = 2 ^ k := by
      rw [hk]
      exact zpow_natCast ..
    rw [zpow_add₀ two_ne_zero, zpow_one] at hplace
    push_cast
    rw [hq, ← hplace]
    ring
  have htwice : |((m * 2 ^ k : ℤ) : ℚ) - (2 * n : ℤ)| < 1 := by
    rw [← hdouble, Int.cast_mul, Int.cast_ofNat, ← mul_sub, abs_mul, abs_two]
    linarith
  have heq := intCast_eq_of_close htwice
  rw [heq, Int.cast_mul, Int.cast_ofNat] at hdouble
  linarith

/-- An integer next to a value is the one that is taken for it. -/
theorem Held.counted_iff {n : ℤ} (h : Held q) (hclose : |q - n| < 1 / 4) :
    counted q = n ↔ ¬Lost n := by
  rcases lt_or_ge |q| (2 ^ 51) with hsmall | hlarge
  · have hlt : |q| + 1 / 2 < 2 ^ (52 : ℤ) := by
      have hpow : (2 : ℚ) ^ (52 : ℤ) = 2 ^ 52 := rfl
      linarith
    have herror := abs_kept_half_sub_le (by decide) hlt
    have hpow : (2 : ℚ) ^ ((52 : ℤ) - 53) / 2 = 1 / 4 := by norm_num
    rw [hpow, abs_le] at herror
    have hcounted : counted q = n := by
      rw [abs_lt] at hclose
      rw [counted, Int.floor_eq_iff]
      constructor <;> linarith
    refine iff_of_true hcounted ?_
    rintro ⟨hlow, -, -⟩
    have hint : (2 : ℚ) ^ 52 ≤ |(n : ℚ)| := by
      rw [abs_intCast]
      exact_mod_cast hlow
    have := abs_sub_abs_le_abs_sub (n : ℚ) q
    rw [abs_sub_comm] at this
    linarith
  · obtain rfl := h.eq_of_close hlarge (hclose.trans (by norm_num))
    exact h.counted_intCast_iff

theorem Held.abs_sub_counted_lt (h : Held q) : |q - counted q| < 2 := by
  have hclose := abs_le.1 h.abs_kept_add_half_sub_le
  have hbelow := Int.floor_le (kept (q + 1 / 2))
  have habove := Int.lt_floor_add_one (kept (q + 1 / 2))
  rw [counted, abs_lt]
  constructor <;> linarith

theorem Held.kept_counted (h : Held q) : kept (counted q) = counted q := by
  rcases h.small_or_integer with hsmall | ⟨n, rfl, hlarge⟩
  · have hclose := abs_le.1 h.abs_kept_add_half_sub_le
    have hbound := abs_le.1 (le_sub_iff_add_le.2 hsmall)
    have hlow : -2 ^ 53 ≤ ⌊kept (q + 1 / 2)⌋ := by
      apply Int.le_floor.2
      push_cast
      linarith
    have hhigh : ⌊kept (q + 1 / 2)⌋ ≤ 2 ^ 53 := by
      have hle : (⌊kept (q + 1 / 2)⌋ : ℚ) ≤ 2 ^ 53 := (Int.floor_le _).trans (by linarith)
      exact_mod_cast hle
    rw [counted]
    exact kept_intCast (by omega)
  · rw [counted, h.kept_add_half hlarge, Int.floor_intCast, h.kept_eq]

theorem Held.abs_kept_add_half_lt (h : Held q) : |kept (q + 1 / 2)| < 2 ^ 1024 := by
  have hnear := abs_sub_abs_le_abs_sub (kept (q + 1 / 2)) q
  have hclose := h.abs_kept_add_half_sub_le
  calc |kept (q + 1 / 2)| < |q| + 4 := by linarith
    _ < 2 ^ 1024 := h.abs_add_lt

theorem Held.abs_counted_lt (h : Held q) : |(counted q : ℚ)| < 2 ^ 1024 := by
  have hnear := abs_sub_abs_le_abs_sub (counted q : ℚ) q
  have hclose := h.abs_sub_counted_lt
  rw [abs_sub_comm] at hclose
  calc |(counted q : ℚ)| < |q| + 4 := by linarith
    _ < 2 ^ 1024 := h.abs_add_lt

theorem Held.abs_kept_sub_counted_sub_le (h : Held q) :
    |kept (q - counted q) - (q - counted q)| ≤ 1 / 8 := by
  have hlt : |q - counted q| < 2 ^ (1 : ℤ) := h.abs_sub_counted_lt
  have hpow : (2 : ℚ) ^ ((1 : ℤ) - 53) / 2 ≤ 1 / 8 := by norm_num
  exact (abs_kept_sub_le (by decide) hlt).trans hpow

theorem Held.abs_kept_sub_counted_lt (h : Held q) : |kept (q - counted q)| < 2 ^ 1024 := by
  have hnear := abs_sub_abs_le_abs_sub (kept (q - counted q)) (q - counted q)
  have hclose := h.abs_kept_sub_counted_sub_le
  have hlt := h.abs_sub_counted_lt
  calc |kept (q - counted q)| < 2 ^ 2 := by linarith
    _ ≤ 2 ^ 1024 := pow_le_pow_right₀ one_le_two (by decide)

theorem Held.lt_abs_kept_sub_counted_iff (h : Held q) {t : ℚ} (ht : t < 1 / 8) :
    t < |kept (q - counted q)| ↔ t < |q - counted q| := by
  rcases le_or_gt |q - counted q| (1 / 4) with hclose | hfar
  · rw [h.kept_sub hclose]
  · have hnear := abs_sub_abs_le_abs_sub (q - counted q) (kept (q - counted q))
    have herror := h.abs_kept_sub_counted_sub_le
    rw [abs_sub_comm] at herror
    refine iff_of_true ?_ ?_ <;> linarith

theorem rational?_half : rational? 0.5 = some (1 / 2) := by
  decide +kernel

/-- What is taken for the nearest integer, before it is clamped. -/
theorem rational?_floor_add_half (hx : rational? x = some q) :
    rational? (floor (x + 0.5)) = some (counted q : ℚ) := by
  have hheld := held_rational? hx
  have hsum := rational?_add hx rational?_half hheld.abs_kept_add_half_lt
  have hcounted : |kept (counted q)| < 2 ^ 1024 := by
    rw [hheld.kept_counted]
    exact hheld.abs_counted_lt
  have hint := rational?_ofInt hcounted
  rw [hheld.kept_counted] at hint
  rw [floor, hsum]
  exact hint

end FieldShow.Numeric
