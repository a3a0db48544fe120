import Mathlib
import FieldShow.Proofs.Rounding

/-!
The bits of a binary64 number. What a word of bits holds can be stored and taken out again without
loss, and so can a number that was rounded, as long as it is not too large.
-/

namespace FieldShow.Numeric

open Float.Model (Format UnpackedFloat totalExponent)
open Float.Model.UnpackedFloat

/-- What binary64 can hold: a mantissa stands at its last place, which is not too high. -/
def Canonical : UnpackedFloat → Prop
  | .finite _ m e _ => Format.binary64.targetExponent (totalExponent m e) = e ∧ e ≤ 971
  | _ => True

section Fields

variable (s : Sign) (e : BitVec 11) (m : BitVec 52)

theorem toNat_implicit : (1#1 ++ m).toNat = 2 ^ 52 + m.toNat := by
  rw [BitVec.toNat_append, ← Nat.shiftLeft_add_eq_or_of_lt m.isLt]
  rfl

theorem unpack_infinity :
    unpack Format.binary64 (packedInfinity Format.binary64 s) = .infinity s := by
  cases s <;> rfl

theorem unpack_subnormal (hm : 0 < m.toNat) :
    unpack Format.binary64 (packComponents Format.binary64 s 0#11 m) =
      .finite s m.toNat (-1074) hm := by
  have hne : m ≠ 0#52 := fun h => by simp [h] at hm
  have hexponent : ¬(0#11 = -1#11) := by decide
  rw [unpack]
  simp only [unpackMantissa_packComponents, unpackExponent_packComponents,
    unpackSign_packComponents, Sign.ofBitVec_toBitVec]
  rw [if_neg hexponent, if_pos trivial, dif_neg hne]
  rfl

theorem unpack_normal (hzero : e ≠ 0#11) (hones : e ≠ -1#11) :
    unpack Format.binary64 (packComponents Format.binary64 s e m) =
      .finite s (2 ^ 52 + m.toNat) (e.toNat - 1075) (by omega) := by
  rw [unpack]
  simp only [unpackMantissa_packComponents, unpackExponent_packComponents,
    unpackSign_packComponents, Sign.ofBitVec_toBitVec]
  rw [if_neg hones, if_neg hzero]
  congr 1
  exact toNat_implicit m

end Fields

theorem log2_eq {m : ℕ} (hlow : 2 ^ 52 ≤ m) (hhigh : m < 2 ^ 53) : m.log2 = 52 := by
  rw [Nat.log2_eq_iff (by omega)]
  exact ⟨hlow, hhigh⟩

theorem canonical_finite_iff {m : ℕ} {e : ℤ} (s : Sign) (hm : 0 < m) :
    Canonical (.finite s m e hm) ↔
      m < 2 ^ 53 ∧ (2 ^ 52 ≤ m ∨ e = -1074) ∧ -1074 ≤ e ∧ e ≤ 971 := by
  have hhigh : m < 2 ^ 53 ↔ m.log2 < 53 := (Nat.log2_lt hm.ne').symm
  have hlow : 2 ^ 52 ≤ m ↔ 52 ≤ m.log2 := (Nat.le_log2 hm.ne').symm
  rw [Canonical, targetExponent_eq, totalExponent, hhigh, hlow]
  omega

theorem pack_normal {m : ℕ} {e : ℤ} (s : Sign) (hm : 0 < m) (hlow : 2 ^ 52 ≤ m) (hhigh : m < 2 ^ 53)
    (hlarge : e ≤ 971) : pack Format.binary64 (.finite s m e hm) =
      packComponents Format.binary64 s (BitVec.ofNat 11 (e + 1075).toNat) (BitVec.ofNat 52 m) := by
  have hbias : (e + 1023 + 52).toNat = (e + 1075).toNat := by omega
  have hfits : ¬(2 ^ 11 ≤ (e + 1075).toNat + 1) := by omega
  have hplaces : m.log2 + 1 = 53 := by rw [log2_eq hlow hhigh]
  show (if 2 ^ 11 ≤ (e + 1023 + 52).toNat + 1 then _ else if m.log2 + 1 = 53 then
    packComponents Format.binary64 s (BitVec.ofNat 11 (e + 1023 + 52).toNat) _ else _) = _
  rw [hbias, if_neg hfits, if_pos hplaces]

theorem pack_subnormal {m : ℕ} (s : Sign) (hm : 0 < m) (hhigh : m < 2 ^ 52) :
    pack Format.binary64 (.finite s m (-1074) hm) =
      packComponents Format.binary64 s 0#11 (BitVec.ofNat 52 m) := by
  have hfits : ¬(2 ^ 11 ≤ ((-1074 : ℤ) + 1023 + 52).toNat + 1) := by decide
  have hplaces : ¬(m.log2 + 1 = 53) := by
    have hlog : m.log2 < 52 := (Nat.log2_lt hm.ne').2 hhigh
    omega
  show (if 2 ^ 11 ≤ ((-1074 : ℤ) + 1023 + 52).toNat + 1 then packedInfinity Format.binary64 s
    else if m.log2 + 1 = 53 then packComponents Format.binary64 s _ (BitVec.ofNat 52 m) else _) = _
  rw [if_neg hfits, if_neg hplaces]

theorem unpack_pack_finite {m : ℕ} {e : ℤ} (s : Sign) (hm : 0 < m)
    (h : Canonical (.finite s m e hm)) :
    unpack Format.binary64 (pack Format.binary64 (.finite s m e hm)) = .finite s m e hm := by
  obtain ⟨hhigh, hplaces, hlow, hlarge⟩ := (canonical_finite_iff s hm).1 h
  rcases Nat.lt_or_ge m (2 ^ 52) with hsmall | hfull
  · obtain rfl : e = -1074 := hplaces.resolve_left (by omega)
    have hmantissa : (BitVec.ofNat 52 m).toNat = m := Nat.mod_eq_of_lt hsmall
    rw [pack_subnormal s hm hsmall, unpack_subnormal s _ (by rw [hmantissa]; exact hm)]
    simp only [hmantissa]
  · have hexponent : (BitVec.ofNat 11 (e + 1075).toNat).toNat = (e + 1075).toNat :=
      Nat.mod_eq_of_lt (by omega)
    have hmantissa : 2 ^ 52 + (BitVec.ofNat 52 m).toNat = m := by
      rw [BitVec.toNat_ofNat]
      omega
    have hzero : BitVec.ofNat 11 (e + 1075).toNat ≠ 0#11 := by
      intro heq
      have := congrArg BitVec.toNat heq
      rw [hexponent, BitVec.toNat_zero] at this
      omega
    have hones : BitVec.ofNat 11 (e + 1075).toNat ≠ -1#11 := by
      intro heq
      have hvalue : (-1#11).toNat = 2047 := rfl
      have := congrArg BitVec.toNat heq
      rw [hexponent, hvalue] at this
      omega
    have hback : ((e + 1075).toNat : ℤ) - 1075 = e := by omega
    rw [pack_normal s hm hfull hhigh hlarge, unpack_normal s _ _ hzero hones]
    simp only [hmantissa, hexponent, hback]

theorem unpack_pack {u : UnpackedFloat} (h : Canonical u) :
    unpack Format.binary64 (pack Format.binary64 u) = u := by
  cases u with
  | notANumber => rfl
  | infinity s => exact unpack_infinity s
  | zero s => exact unpack_packedZero
  | finite s m e hm => exact unpack_pack_finite s hm h

theorem canonical_unpack (b : BitVec Format.binary64.numBits) :
    Canonical (unpack Format.binary64 b) := by
  obtain ⟨s, e, m, rfl⟩ : ∃ s e m, b = packComponents Format.binary64 s e m :=
    ⟨_, _, _, (packComponents_unpackSign_unpackExponent_unpackMantissa b).symm⟩
  have hm : m.toNat < 2 ^ 52 := m.isLt
  by_cases hones : e = -1#11
  · subst hones
    simp only [unpack, unpackExponent_packComponents, if_true]
    split <;> trivial
  by_cases hzero : e = 0#11
  · subst hzero
    rcases Nat.eq_zero_or_pos m.toNat with hnone | hpos
    · obtain rfl : m = 0#52 := BitVec.eq_of_toNat_eq hnone
      exact unpack_packedZero.symm ▸ trivial
    · rw [unpack_subnormal s m hpos, canonical_finite_iff]
      omega
  · have hpos : e.toNat ≠ 0 := fun h => hzero (BitVec.eq_of_toNat_eq h)
    have hlarge : e.toNat ≠ 2047 := fun h => hones (BitVec.eq_of_toNat_eq h)
    have hlt : e.toNat < 2 ^ 11 := e.isLt
    rw [unpack_normal s e m hzero hones, canonical_finite_iff]
    omega

end FieldShow.Numeric
