import FieldShow.Json.Numeral
import FieldShow.Proofs.Packing

/-!
Decimal numbers and binary64. Reading a decimal number rounds its value, whichever way the digits
are written, and the digits that stand for a number are read back as that number.
-/

namespace FieldShow.Numeric

open Float.Model (Format UnpackedFloat totalExponent)
open Float.Model.UnpackedFloat

/-! ## Reading -/

theorem ofScientific_unpacked {m : ℕ} (hm : 0 < m) {e : ℤ} (hlow : -(2 ^ 11 + m.log2) ≤ e)
    (hhigh : e ≤ 2 ^ 11) :
    UnpackedFloat.ofScientific Format.binary64 m e = rounded .positive (m * 10 ^ e) := by
  have hhuge : ¬e > 2 ^ 11 := by omega
  have htiny : ¬e < -(2 ^ 11 + m.log2) := by omega
  rw [UnpackedFloat.ofScientific, dif_neg hm.ne', if_neg hhuge, if_neg htiny]
  split
  · next hpos =>
    have hfull : 2 ^ 52 ≤ m <<< Format.binary64.mantissaBits := by
      have : m <<< Format.binary64.mantissaBits = m * 2 ^ 53 := Nat.shiftLeft_eq m 53
      omega
    have hvalue : ((m <<< Format.binary64.mantissaBits : ℕ) : ℚ) *
        2 ^ (-(Format.binary64.mantissaBits : ℤ)) = m := by
      have := shiftLeft_value m Format.binary64.mantissaBits 0
      rwa [zero_sub, zpow_zero, mul_one] at this
    have hpower : ((10 ^ e.toNat : ℕ) : ℚ) * 2 ^ (0 : ℤ) = 10 ^ e := by
      rw [zpow_zero, mul_one, Nat.cast_pow, ← zpow_natCast, Int.toNat_of_nonneg hpos]
      rfl
    rw [mul_eq _ _ _ _ _ _ hfull, hvalue, hpower]
    rfl
  · next hneg =>
    have hpower : (m : ℚ) * 2 ^ (0 : ℤ) / (((10 ^ (-e).toNat : ℕ) : ℚ) * 2 ^ (0 : ℤ)) =
        m * 10 ^ e := by
      rw [zpow_zero, mul_one, mul_one, Nat.cast_pow, ← zpow_natCast, Int.toNat_of_nonneg (by omega),
        zpow_neg, div_inv_eq_mul]
      rfl
    rw [div_eq, hpower]
    rfl

theorem exists_canonical_natCast {m : ℕ} (hm : 0 < m) (hhigh : m < 2 ^ 53) :
    ∃ n e, ∃ hn : 0 < n, 2 ^ 52 ≤ n ∧ Canonical (.finite .positive n e hn) ∧
      (n * 2 ^ e : ℚ) = m := by
  have hlog : m.log2 < 53 := (Nat.log2_lt hm.ne').2 hhigh
  have hvalue := shiftLeft_value m (52 - m.log2) 0
  rw [zpow_zero, mul_one] at hvalue
  have hlow : 2 ^ 52 ≤ m <<< (52 - m.log2) := by
    rw [Nat.shiftLeft_eq]
    calc 2 ^ 52 = 2 ^ m.log2 * 2 ^ (52 - m.log2) := by rw [← pow_add]; congr 1; omega
      _ ≤ m * 2 ^ (52 - m.log2) := Nat.mul_le_mul_right _ (Nat.log2_self_le hm.ne')
  have hbelow : m <<< (52 - m.log2) < 2 ^ 53 := by
    rw [Nat.shiftLeft_eq]
    calc m * 2 ^ (52 - m.log2) < 2 ^ (m.log2 + 1) * 2 ^ (52 - m.log2) :=
          Nat.mul_lt_mul_of_pos_right Nat.lt_log2_self (by positivity)
      _ = 2 ^ 53 := by rw [← pow_add]; congr 1; omega
  have hpos : 0 < m <<< (52 - m.log2) := by omega
  refine ⟨_, _, hpos, hlow, ?_, hvalue⟩
  rw [canonical_finite_iff]
  omega

theorem toFloat_natCast {m : ℕ} (hm : 0 < m) (hhigh : m < 2 ^ 53) :
    m.toUInt64.toFloat = .ofModel (.pack (rounded .positive m)) := by
  have hword : m.toUInt64.toNat = m := Nat.mod_eq_of_lt (by omega)
  have hnormal : UnpackedFloat.normalize Format.binary64 m 0 .positive = rounded .positive m := by
    have hcompare : compare (m : ℤ) 0 = .gt := Int.compare_eq_gt.2 (by omega)
    rw [UnpackedFloat.normalize, hcompare]
    show UnpackedFloat.round Format.binary64 .positive m 0 = rounded .positive m
    rw [round_eq hm, zpow_zero, mul_one]
  show Float.ofModel
    (.pack (UnpackedFloat.normalize Format.binary64 m.toUInt64.toNat 0 .positive)) = _
  rw [hword, hnormal]

theorem rational?_powers : ∀ e (h : e < Float.exactlyRepresentablePowersOfTen.size),
    rational? Float.exactlyRepresentablePowersOfTen[e] = some (10 ^ e) := by
  decide +kernel

theorem exists_of_rational? {x : Float} {q : ℚ} (hx : rational? x = some q) (hq : 0 < q) :
    ∃ m e, ∃ hm : 0 < m, x.toModel.unpack = .finite .positive m e hm ∧ q = m * 2 ^ e := by
  rw [rational?] at hx
  split at hx
  · next h =>
    obtain rfl := Option.some.inj hx
    exact absurd hq (lt_irrefl 0)
  · next m e hm h => exact ⟨m, e, hm, h, (Option.some.inj hx).symm⟩
  · next m e hm h =>
    have hpos : (0 : ℚ) < m * 2 ^ e := value_pos hm e
    obtain rfl := Option.some.inj hx
    exact absurd hq (by linarith)
  · cases hx
  · cases hx

theorem ofScientific_fast {m : ℕ} (hm : 0 < m) (negative : Bool) {e : ℕ} (hhigh : m < 2 ^ 53)
    (he : e ≤ 22) : Float.ofScientific m negative e =
      .ofModel (.pack (rounded .positive (m * 10 ^ (if negative then -(e : ℤ) else e)))) := by
  -- the digits and the power of ten are both held exactly, so there is one rounding
  obtain ⟨n, f, hn, hfull, hcanonical, hvalue⟩ := exists_canonical_natCast hm hhigh
  have hdigits : m.toUInt64.toFloat.toModel.unpack = .finite .positive n f hn := by
    rw [toFloat_natCast hm hhigh, ← hvalue, rounded_eq_finite hn .positive hcanonical.1]
    exact unpack_pack hcanonical
  have hindex : e < Float.exactlyRepresentablePowersOfTen.size := Nat.lt_succ_of_le he
  obtain ⟨k, g, hk, hpower, hten⟩ :=
    exists_of_rational? (rational?_powers e hindex) (by positivity)
  rw [Float.ofScientific, dif_pos ⟨hhigh, he⟩]
  cases negative with
  | true =>
    show Float.ofModel (.pack (UnpackedFloat.div Format.binary64 m.toUInt64.toFloat.toModel.unpack
      Float.exactlyRepresentablePowersOfTen[e].toModel.unpack)) = _
    rw [hdigits, hpower, div_eq, hvalue, ← hten, if_pos rfl, zpow_neg, zpow_natCast,
      ← div_eq_mul_inv]
    rfl
  | false =>
    show Float.ofModel (.pack (UnpackedFloat.mul Format.binary64 m.toUInt64.toFloat.toModel.unpack
      Float.exactlyRepresentablePowersOfTen[e].toModel.unpack)) = _
    rw [hdigits, hpower, mul_eq _ _ _ _ _ _ hfull, hvalue, ← hten, if_neg Bool.false_ne_true,
      zpow_natCast]
    rfl

theorem ofScientific_eq {m : ℕ} (hm : 0 < m) (negative : Bool) {e : ℕ}
    (hrange : e ≤ 400 ∨ negative ∧ e ≤ 400 + m.log2) : Float.ofScientific m negative e =
      .ofModel (.pack (rounded .positive (m * 10 ^ (if negative then -(e : ℤ) else e)))) := by
  -- both factors are exact on the fast path, and the slow one works with integers
  by_cases hfast : m < 2 ^ 53 ∧ e ≤ 22
  · exact ofScientific_fast hm negative hfast.1 hfast.2
  · rw [Float.ofScientific, dif_neg hfast]
    cases negative with
    | true =>
      have hexponent : Int.negOfNat e = -(e : ℤ) := Int.negOfNat_eq
      show Float.ofModel (.pack (UnpackedFloat.ofScientific Format.binary64 m (Int.negOfNat e))) = _
      rw [hexponent, ofScientific_unpacked hm (by omega) (by omega), if_pos rfl]
    | false =>
      have hsmall : e ≤ 400 := hrange.resolve_right fun h => Bool.false_ne_true h.1
      show Float.ofModel (.pack (UnpackedFloat.ofScientific Format.binary64 m (e : ℤ))) = _
      rw [ofScientific_unpacked hm (by omega) (by omega), if_neg Bool.false_ne_true]

namespace Decimal

def value (d : Decimal) : ℚ := d.digits * 10 ^ d.exponent

/-- Reading a decimal number rounds its value. -/
theorem toFloat_eq {d : Decimal} (hdigits : 0 < d.digits)
    (hlow : -400 - (d.digits.log2 : ℤ) ≤ d.exponent) (hhigh : d.exponent ≤ 400) :
    d.toFloat = .ofModel (.pack (rounded .positive d.value)) := by
  have hread : ¬(d.digits = 0 ∨ d.exponent < -400 - d.digits.log2) := by omega
  have hbelow : ¬400 < d.exponent := by omega
  have hexponent : (if d.exponent < 0 then -(d.exponent.natAbs : ℤ) else d.exponent.natAbs) =
      d.exponent := by
    split <;> omega
  have hrange : d.exponent.natAbs ≤ 400 ∨
      decide (d.exponent < 0) = true ∧ d.exponent.natAbs ≤ 400 + d.digits.log2 := by
    rw [decide_eq_true_iff]
    omega
  rw [toFloat, if_neg hread, if_neg hbelow, ofScientific_eq hdigits _ hrange, value]
  simp only [decide_eq_true_eq, hexponent]

/-! ## Writing -/

theorem neighbour?_toFloat {x : Float} {q : ℚ} {e : ℤ} {d : Decimal}
    (h : neighbour? x q e = some d) : d.toFloat = x := by
  unfold neighbour? at h
  dsimp only at h
  split at h
  · next hbelow =>
    split at h
    · next habove =>
      obtain rfl := Option.some.inj h
      exact habove.1
    · obtain rfl := Option.some.inj h
      exact hbelow
  · split at h
    · next habove =>
      obtain rfl := Option.some.inj h
      exact habove
    · cases h

theorem exists_den_eq (m : ℕ) (e : ℤ) : ∃ n, ((m : ℚ) * 2 ^ e).den = 2 ^ n := by
  rcases e with k | k
  · refine ⟨0, ?_⟩
    have hvalue : (m : ℚ) * 2 ^ (Int.ofNat k) = (m * 2 ^ k : ℕ) := by
      rw [Int.ofNat_eq_natCast, zpow_natCast, Nat.cast_mul, Nat.cast_pow]
      rfl
    rw [hvalue, Rat.den_natCast]
    rfl
  · have hvalue : (m : ℚ) * 2 ^ (Int.negSucc k) = Rat.divInt m ((2 ^ (k + 1) : ℕ) : ℤ) := by
      rw [Rat.divInt_eq_div, zpow_negSucc, div_eq_mul_inv]
      push_cast
      rfl
    have hdvd := Rat.den_dvd m ((2 ^ (k + 1) : ℕ) : ℤ)
    rw [← hvalue, Int.natCast_dvd_natCast] at hdvd
    obtain ⟨n, -, hn⟩ := (Nat.dvd_prime_pow Nat.prime_two).1 hdvd
    exact ⟨n, hn⟩

section Dyadic

variable {q : ℚ} {n : ℕ}

-- a half is five tenths, so every two below makes a place and a five above
theorem ofDyadic_eq (hn : q.den = 2 ^ n) : ofDyadic q = ⟨q.num.natAbs * 5 ^ n, -n⟩ := by
  rw [ofDyadic, hn, Nat.log2_two_pow]
  rfl

theorem value_ofDyadic (hq : 0 < q) (hn : q.den = 2 ^ n) : (ofDyadic q).value = q := by
  have hten : (10 : ℚ) ^ n = 5 ^ n * 2 ^ n := by rw [← mul_pow]; norm_num
  have hden : (q.den : ℚ) = 2 ^ n := by rw [hn]; norm_num
  have hfive : (5 : ℚ) ^ n ≠ 0 := pow_ne_zero n (by norm_num)
  have habs : (q.num.natAbs : ℚ) = q.num := by
    rw [← Int.cast_natCast, Int.natAbs_of_nonneg (Rat.num_pos.2 hq).le]
  rw [ofDyadic_eq hn, value]
  push_cast
  rw [habs, zpow_neg, zpow_natCast, hten, ← div_eq_mul_inv, mul_comm (q.num : ℚ),
    mul_div_mul_left _ _ hfive, ← hden, Rat.num_div_den]

theorem two_pow_le_digits (hq : 0 < q) (n : ℕ) : 2 ^ n ≤ q.num.natAbs * 5 ^ n := by
  have hfirst : 0 < q.num.natAbs := Int.natAbs_pos.2 (Rat.num_pos.2 hq).ne'
  calc 2 ^ n ≤ 5 ^ n := Nat.pow_le_pow_left (by decide) n
    _ ≤ q.num.natAbs * 5 ^ n := Nat.le_mul_of_pos_left _ hfirst

end Dyadic

theorem toFloat_ofDyadic {m : ℕ} (hm : 0 < m) (e : ℤ) :
    (ofDyadic (m * 2 ^ e)).toFloat = .ofModel (.pack (rounded .positive (m * 2 ^ e))) := by
  have hpos : (0 : ℚ) < m * 2 ^ e := value_pos hm e
  obtain ⟨n, hn⟩ := exists_den_eq m e
  generalize (m : ℚ) * 2 ^ e = q at *
  have hdigits := two_pow_le_digits hpos n
  have hsome : 0 < q.num.natAbs * 5 ^ n := (Nat.two_pow_pos n).trans_le hdigits
  have hplaces : n ≤ (q.num.natAbs * 5 ^ n).log2 := (Nat.le_log2 hsome.ne').2 hdigits
  have hexpansion := ofDyadic_eq hn
  rw [toFloat_eq, value_ofDyadic hpos hn] <;> rw [hexpansion]
  · exact hsome
  · show -400 - ((q.num.natAbs * 5 ^ n).log2 : ℤ) ≤ -n
    omega
  · show -(n : ℤ) ≤ 400
    omega

end Decimal

theorem unpack_toModel_abs (x : Float) : x.abs.toModel.unpack = x.toModel.unpack.abs := by
  have hcanonical : Canonical x.toModel.unpack.abs := by
    have h := canonical_unpack x.toModel.toBits.toBitVec
    show Canonical (UnpackedFloat.unpack Format.binary64 x.toModel.toBits.toBitVec).abs
    generalize UnpackedFloat.unpack Format.binary64 x.toModel.toBits.toBitVec = u at *
    cases u <;> exact h
  exact unpack_pack hcanonical

/-- The digits that are found for a number are read back as its absolute value. -/
theorem toFloat_shortest {x : Float} (hx : x.isFinite) : (Decimal.shortest x).toFloat = x.abs := by
  have hunpack := unpack_toModel_abs x
  have hcanonical : Canonical x.toModel.unpack := canonical_unpack _
  have habs : x.abs = .ofModel (.pack x.toModel.unpack.abs) := rfl
  have hfinite : x.toModel.unpack.isFinite := hx
  generalize x.toModel.unpack = u at *
  cases u with
  | notANumber => cases hfinite
  | infinity s => cases hfinite
  | zero s =>
    have hrational : rational? x.abs = some 0 := by
      rw [rational?, hunpack]
      rfl
    have hzero : (Decimal.mk 0 0).toFloat = .ofModel (.pack (.zero .positive)) := rfl
    rw [Decimal.shortest, hrational, habs]
    exact hzero
  | finite s m e hm =>
    have hrational : rational? x.abs = some ((m : ℚ) * 2 ^ e) := by
      rw [rational?, hunpack]
      rfl
    have hpos : (0 : ℚ) < m * 2 ^ e := value_pos hm e
    -- a short candidate was tried before it is taken, and the whole expansion is exact
    have hexact : (Decimal.ofDyadic (m * 2 ^ e)).toFloat = x.abs := by
      rw [Decimal.toFloat_ofDyadic hm, rounded_eq_finite hm .positive hcanonical.1, habs]
      rfl
    rw [Decimal.shortest, hrational]
    dsimp only
    rw [if_neg hpos.ne']
    cases hfound : (List.range 18).findSome? fun n : ℕ => Decimal.neighbour? x.abs (m * 2 ^ e)
        (Decimal.leadingPower (m * 2 ^ e) + 1 - n) with
    | none => exact hexact
    | some d =>
      obtain ⟨n, -, hn⟩ := List.exists_of_findSome?_eq_some hfound
      exact Decimal.neighbour?_toFloat hn

theorem lt_zero_iff (x : Float) :
    x < 0 ↔ x.toModel.unpack.compare (.zero .positive) = some .lt := by
  have hzero : (0 : Float).toModel.unpack = .zero .positive := rfl
  have hlt : x < 0 ↔ (x.toModel.unpack.compare (0 : Float).toModel.unpack == some .lt) = true := by
    show decide (x.toModel < (0 : Float).toModel) = true ↔ _
    rw [decide_eq_true_iff]
    rfl
  rw [hlt, hzero, beq_iff_eq]

theorem ofModel_pack_unpack (x : Float) : Float.ofModel (.pack x.toModel.unpack) = x := by
  obtain ⟨⟨bits, hvalid⟩⟩ := x
  have hbits : pack Format.binary64 (unpack Format.binary64 bits.toBitVec) = bits.toBitVec :=
    pack_unpack_of_valid hvalid
  simp only [Float.Model.pack, Float.Model.unpack, hbits]

theorem unpackSign_pack_finite {m : ℕ} (hm : 0 < m) (e : ℤ) (s : Sign) :
    unpackSign (pack Format.binary64 (.finite s m e hm)) = s.toBitVec := by
  rw [pack]
  dsimp only
  split
  · exact unpackSign_packComponents ..
  · split <;> exact unpackSign_packComponents ..

theorem unpackSign_pack_rounded (v : ℚ) (s : Sign) :
    unpackSign (pack Format.binary64 (rounded s v)) = s.toBitVec := by
  rw [rounded, carried]
  dsimp only
  split
  · exact unpackSign_packComponents ..
  · exact unpackSign_pack_finite ..

theorem compare_unpack_positive {b : BitVec Format.binary64.numBits}
    (hsign : Sign.ofBitVec (unpackSign b) = .positive) :
    (unpack Format.binary64 b).compare (.zero .positive) ≠ some .lt := by
  intro hcompare
  unfold unpack at hcompare
  simp only [hsign] at hcompare
  split at hcompare
  · split at hcompare <;> cases hcompare
  · split at hcompare
    · split at hcompare <;> cases hcompare
    · cases hcompare

theorem compare_pack_rounded (v : ℚ) :
    (unpack Format.binary64 (pack Format.binary64 (rounded .positive v))).compare
      (.zero .positive) ≠ some .lt := by
  apply compare_unpack_positive
  rw [unpackSign_pack_rounded, Sign.ofBitVec_toBitVec]

theorem signed_iff (x : Float) : signed x ↔
    x.toModel.unpack.compare (.zero .positive) = some .lt ∨
      (unpack Format.binary64 (pack Format.binary64 (UnpackedFloat.div Format.binary64
        (.finite .positive (2 ^ 52) (-52) (by decide)) x.toModel.unpack))).compare
          (.zero .positive) = some .lt := by
  rw [signed, Bool.or_eq_true, decide_eq_true_iff, decide_eq_true_iff, lt_zero_iff, lt_zero_iff]
  rfl

theorem signed_of_unpack_zero {x : Float} {s : Sign} (h : x.toModel.unpack = .zero s) :
    signed x ↔ s = .negative := by
  rw [signed_iff, h]
  cases s with
  | negative => exact iff_of_true (.inr rfl) rfl
  | positive => exact iff_of_false (by decide) nofun

theorem signed_of_unpack_finite {x : Float} {s : Sign} {m : ℕ} {e : ℤ} {hm : 0 < m}
    (h : x.toModel.unpack = .finite s m e hm) : signed x ↔ s = .negative := by
  rw [signed_iff, h]
  cases s with
  | negative => exact iff_of_true (.inl rfl) rfl
  | positive =>
    refine iff_of_false ?_ nofun
    rintro (hself | hinverse)
    · cases hself
    · rw [div_eq] at hinverse
      exact compare_pack_rounded _ hinverse

theorem signed_abs_of_sign {x : Float} {s : Sign} (hsigned : signed x ↔ s = .negative)
    (hnegative : s = .negative → x.toModel.unpack.abs.neg = x.toModel.unpack)
    (hpositive : s = .positive → x.toModel.unpack.abs = x.toModel.unpack) :
    (if signed x then -x.abs else x.abs) = x := by
  have hself := ofModel_pack_unpack x
  cases s with
  | negative =>
    have hneg : -x.abs = .ofModel (.pack x.toModel.unpack.abs.neg) := by
      rw [← unpack_toModel_abs]
      rfl
    rw [if_pos (hsigned.2 rfl), hneg, hnegative rfl, hself]
  | positive =>
    have hplain : ¬signed x := by
      intro hs
      cases hsigned.1 hs
    have habs : x.abs = .ofModel (.pack x.toModel.unpack.abs) := rfl
    rw [if_neg hplain, habs, hpositive rfl, hself]

theorem isFinite_abs {x : Float} (h : x.isFinite) : x.abs.isFinite := by
  show x.abs.toModel.unpack.isFinite = true
  have hself : x.toModel.unpack.isFinite = true := h
  rw [unpack_toModel_abs]
  cases hu : x.toModel.unpack <;> rw [hu] at hself <;> exact hself

theorem signed_abs {x : Float} (hx : x.isFinite) : (if signed x then -x.abs else x.abs) = x := by
  have hfinite : x.toModel.unpack.isFinite := hx
  cases h : x.toModel.unpack with
  | notANumber =>
    rw [h] at hfinite
    cases hfinite
  | infinity s =>
    rw [h] at hfinite
    cases hfinite
  | zero s =>
    apply signed_abs_of_sign (signed_of_unpack_zero h) <;> rw [h] <;> rintro rfl <;> rfl
  | finite s m e hm =>
    apply signed_abs_of_sign (signed_of_unpack_finite h) <;> rw [h] <;> rintro rfl <;> rfl

namespace Decimal

/-! ## Digits -/

theorem isDigit_of_mem_places (d : Decimal) : ∀ c ∈ d.places.2, c.isDigit := by
  intro c hc
  unfold places at hc
  split at hc
  · cases hc
  · rcases List.mem_append.1 hc with hzero | hdigit
    · rw [List.eq_of_mem_replicate hzero]
      rfl
    · exact Nat.isDigit_of_mem_toDigits (by decide) (by decide) hdigit

theorem places_of_neg {d : Decimal} (h : d.exponent < 0) :
    d.places.2.length = d.exponent.natAbs ∧
      Nat.ofDigitChars 10 d.places.2 d.places.1 = d.digits := by
  have hplaces : ¬0 ≤ d.exponent := by omega
  have hcount : d.exponent.natAbs ≠ 0 := by omega
  simp only [places, if_neg hplaces, Nat.pow_eq]
  generalize d.exponent.natAbs = n at *
  have hlength : (Nat.toDigits 10 (d.digits % 10 ^ n)).length ≤ n :=
    (Nat.length_toDigits_le_iff (by decide) (by omega)).2 (Nat.mod_lt _ (by positivity))
  constructor
  · rw [List.length_append, List.length_replicate]
    omega
  · have hall : (Nat.toDigits 10 (d.digits % 10 ^ n)).length +
        (n - (Nat.toDigits 10 (d.digits % 10 ^ n)).length) = n := by omega
    rw [Nat.ofDigitChars_append, Nat.ofDigitChars_replicate_zero,
      Nat.ofDigitChars_eq_ofDigitChars_zero, Nat.ofDigitChars_ten_toDigits, ← Nat.mul_assoc,
      ← pow_add, hall, Nat.div_add_mod]

end Decimal

end FieldShow.Numeric

namespace FieldShow.Numeral

open Numeric

theorem isDigit_of_mem_ofDecimal (negative : Bool) (d : Decimal) :
    ∀ c ∈ (ofDecimal negative d).fraction, c.isDigit := by
  have hplaces : ∀ c ∈ (if d.places.2 = [] then ['0'] else d.places.2), c.isDigit := by
    split
    · exact List.forall_mem_singleton.2 rfl
    · exact d.isDigit_of_mem_places
  rw [ofDecimal]
  split
  · exact hplaces
  · exact fun c hc =>
      Nat.isDigit_of_mem_toDigits (by decide) (by decide) (List.mem_of_mem_drop hc)

theorem magnitude_exponential (negative : Bool) (d : Decimal) :
    magnitude ⟨negative, Nat.ofDigitChars 10 ((Nat.toDigits 10 d.digits).take 1) 0,
      (Nat.toDigits 10 d.digits).drop 1,
      some (d.exponent + (Nat.toDigits 10 d.digits).length - 1)⟩ = d := by
  have hvalue : Nat.ofDigitChars 10 ((Nat.toDigits 10 d.digits).drop 1)
      (Nat.ofDigitChars 10 ((Nat.toDigits 10 d.digits).take 1) 0) = d.digits := by
    rw [← Nat.ofDigitChars_append, List.take_append_drop, Nat.ofDigitChars_ten_toDigits]
  have hlength : 0 < (Nat.toDigits 10 d.digits).length := Nat.length_toDigits_pos
  have hexponent : d.exponent + (Nat.toDigits 10 d.digits).length - 1 -
      ((Nat.toDigits 10 d.digits).length - 1 : ℕ) = d.exponent := by omega
  rw [magnitude]
  simp only [hvalue, List.length_drop, Option.getD_some, hexponent]

theorem magnitude_positional (negative : Bool) {d : Decimal} (h : d.exponent < 0) :
    magnitude ⟨negative, d.places.1, d.places.2, none⟩ = d := by
  obtain ⟨hlength, hvalue⟩ := Decimal.places_of_neg h
  have hexponent : (0 : ℤ) - (d.exponent.natAbs : ℕ) = d.exponent := by omega
  rw [magnitude]
  simp only [hvalue, hlength, Option.getD_none, hexponent]

theorem toFloat_magnitude_zeros (negative : Bool) {d : Decimal} (hpos : 0 ≤ d.exponent)
    (hsmall : d.digits = 0 ∨ d.exponent ≤ 400) {k : ℕ} (hk : k ≤ 400) :
    (magnitude ⟨negative, d.digits * 10 ^ d.exponent.toNat, List.replicate k '0', none⟩).toFloat =
      d.toFloat := by
  -- zeros behind the point change the digits, but reading looks only at their value
  have hmagnitude :
      magnitude ⟨negative, d.digits * 10 ^ d.exponent.toNat, List.replicate k '0', none⟩ =
        ⟨10 ^ k * (d.digits * 10 ^ d.exponent.toNat), -k⟩ := by
    simp only [magnitude, Nat.ofDigitChars_replicate_zero, List.length_replicate, Option.getD_none,
      Int.zero_sub]
  rw [hmagnitude]
  rcases Nat.eq_zero_or_pos d.digits with hzero | hdigits
  · have hnone : 10 ^ k * (d.digits * 10 ^ d.exponent.toNat) = 0 := by
      rw [hzero, Nat.zero_mul, Nat.mul_zero]
    rw [Decimal.toFloat, Decimal.toFloat, if_pos (.inl hnone), if_pos (.inl hzero)]
  · have hall : 0 < 10 ^ k * (d.digits * 10 ^ d.exponent.toNat) := by positivity
    have hvalue : Decimal.value ⟨10 ^ k * (d.digits * 10 ^ d.exponent.toNat), -k⟩ = d.value := by
      have hpower : (10 : ℚ) ^ d.exponent = 10 ^ d.exponent.toNat := by
        rw [← zpow_natCast, Int.toNat_of_nonneg hpos]
      have hten : (10 : ℚ) ^ k ≠ 0 := by positivity
      rw [Decimal.value, Decimal.value, hpower, zpow_neg, zpow_natCast]
      push_cast
      rw [mul_comm ((10 : ℚ) ^ k), mul_assoc, mul_inv_cancel₀ hten, mul_one]
    have hexponent : d.exponent ≤ 400 := hsmall.resolve_left hdigits.ne'
    rw [Decimal.toFloat_eq hall (by dsimp only; omega) (by dsimp only; omega), hvalue,
      Decimal.toFloat_eq hdigits (by omega) hexponent]

theorem toFloat_magnitude_ofDecimal (negative : Bool) (d : Decimal) :
    (ofDecimal negative d).magnitude.toFloat = d.toFloat := by
  rw [ofDecimal]
  dsimp only
  split
  · next hplain =>
    rcases Int.lt_or_le d.exponent 0 with hneg | hpos
    · have hfraction : d.places.2 ≠ [] := by
        rw [← List.length_pos_iff, (Decimal.places_of_neg hneg).1]
        omega
      rw [if_neg hfraction, magnitude_positional negative hneg]
    · have hplaces : d.places = (d.digits * 10 ^ d.exponent.toNat, []) := if_pos hpos
      have hlength : 0 < (Nat.toDigits 10 d.digits).length := Nat.length_toDigits_pos
      rw [hplaces, if_pos rfl]
      exact toFloat_magnitude_zeros negative hpos (hplain.imp_right fun h => by omega)
        (k := 1) (by decide)
  · rw [magnitude_exponential]

theorem toFloat_ofFloat {x : Float} (h : x.isFinite) : (Numeral.ofFloat x).toFloat = x := by
  have hmagnitude : (Numeral.ofFloat x).magnitude.toFloat = x.abs := by
    rw [ofFloat, toFloat_magnitude_ofDecimal, toFloat_shortest h]
  have hnegative : (Numeral.ofFloat x).negative = signed x := by
    rw [ofFloat, ofDecimal]
    split <;> rfl
  rw [toFloat, hmagnitude, hnegative, signed_abs h]

theorem value_ofInt {n : ℤ} (h : Json.Word n) : (ofInt n).value = .int n := by
  have hsign : (if decide (n < 0) = true then -(n.natAbs : ℤ) else n.natAbs) = n := by
    split
    · next hneg =>
      rw [decide_eq_true_iff] at hneg
      omega
    · next hpos =>
      rw [decide_eq_true_iff] at hpos
      omega
  have hzero : ¬(decide (n < 0) = true ∧ n.natAbs = 0) := by
    rw [decide_eq_true_iff]
    omega
  have hread : (ofInt n).toInt? = some n := by
    show toInt? ⟨n < 0, n.natAbs, [], none⟩ = some n
    rw [toInt?, if_pos ⟨rfl, rfl, hzero⟩, hsign]
  rw [value, hread]
  exact if_pos h

theorem toInt?_ofFloat (x : Float) : (Numeral.ofFloat x).toInt? = none := by
  -- there is a point or an exponent in every numeral of a binary64 number
  refine if_neg fun h => ?_
  rw [ofFloat, ofDecimal] at h
  split at h
  · obtain ⟨hfraction, -⟩ := h
    dsimp only at hfraction
    split at hfraction
    · cases hfraction
    · contradiction
  · cases h.2.1

theorem value_ofFloat {x : Float} (h : x.isFinite) : (Numeral.ofFloat x).value = .float x := by
  rw [value, toInt?_ofFloat, toFloat_ofFloat h]

end FieldShow.Numeral
