import FieldShow.Proofs.Decimals
import FieldShow.Geometry.Vec

/-!
Lengths are numbers. What is computed from a displacement is never NaN, so that the strides at hand
either reach its end or are fewer than it takes.
-/

namespace FieldShow

namespace Numeric

open Float.Model (Format UnpackedFloat)
open Float.Model.UnpackedFloat

def Unsigned : UnpackedFloat → Prop
  | .notANumber => False
  | .infinity s | .zero s | .finite s .. => s = .positive

def IsNumber (x : Float) : Prop := x.toModel.unpack ≠ .notANumber

variable {u v : UnpackedFloat} {x y : Float}

theorem Unsigned.ne_notANumber (h : Unsigned u) : u ≠ .notANumber := by
  rintro rfl
  exact h

theorem unpack_ne_notANumber {b : BitVec Format.binary64.numBits} (h : unpackExponent b ≠ -1#_) :
    unpack Format.binary64 b ≠ .notANumber := by
  rw [unpack]
  dsimp only
  rw [if_neg h]
  split
  · split <;> nofun
  · nofun

theorem unpack_pack_ne_notANumber (h : u ≠ .notANumber) :
    unpack Format.binary64 (pack Format.binary64 u) ≠ .notANumber := by
  cases u with
  | notANumber => exact absurd rfl h
  | infinity s =>
    rw [pack, unpack_infinity]
    nofun
  | zero s => cases s <;> exact unpack_ne_notANumber (by decide)
  | finite s m e hm =>
    rw [pack]
    dsimp only
    split
    · rw [unpack_infinity]
      nofun
    · next hsmall =>
      refine unpack_ne_notANumber ?_
      split <;> rw [unpackExponent_packComponents]
      · refine fun hones => hsmall ?_
        generalize (e + _ + _ : ℤ).toNat = biased at hones ⊢
        have hfull : biased % 2 ^ 11 = 2 ^ 11 - 1 :=
          (BitVec.toNat_ofNat ..).symm.trans (congrArg BitVec.toNat hones)
        show 2 ^ 11 ≤ biased + 1
        omega
      · decide

theorem unpackSign_pack (h : Unsigned u) :
    Sign.ofBitVec (unpackSign (pack Format.binary64 u)) = .positive := by
  cases u with
  | notANumber => cases h
  | infinity s =>
    obtain rfl : s = .positive := h
    rfl
  | zero s =>
    obtain rfl : s = .positive := h
    rfl
  | finite s m e hm =>
    obtain rfl : s = .positive := h
    rw [unpackSign_pack_finite, Sign.ofBitVec_toBitVec]

theorem unsigned_unpack {b : BitVec Format.binary64.numBits}
    (hsign : Sign.ofBitVec (unpackSign b) = .positive)
    (hnumber : unpack Format.binary64 b ≠ .notANumber) : Unsigned (unpack Format.binary64 b) := by
  unfold unpack at hnumber ⊢
  simp only [hsign] at hnumber ⊢
  split
  · split
    · rfl
    · next hones hmantissa => exact hnumber (by rw [if_pos hones, if_neg hmantissa])
  · split
    · split <;> rfl
    · rfl

theorem unsigned_unpack_pack (h : Unsigned u) :
    Unsigned (unpack Format.binary64 (pack Format.binary64 u)) :=
  unsigned_unpack (unpackSign_pack h) (unpack_pack_ne_notANumber h.ne_notANumber)

theorem unsigned_roundWithAccuracy (m : ℕ) (e : ℤ) (a : Accuracy) :
    Unsigned (roundWithAccuracy Format.binary64 .positive m e a) := by
  unfold roundWithAccuracy
  dsimp only
  split <;> rfl

theorem roundWithAccuracy_ne_notANumber (s : Sign) (m : ℕ) (e : ℤ) (a : Accuracy) :
    roundWithAccuracy Format.binary64 s m e a ≠ .notANumber := by
  unfold roundWithAccuracy
  dsimp only
  split <;> nofun

theorem unsigned_normalize (n : ℕ) (e : ℤ) :
    Unsigned (normalize Format.binary64 n e .positive) := by
  cases n with
  | zero => rfl
  | succ n =>
    have hcompare : compare ((n + 1 : ℕ) : ℤ) 0 = .gt := Int.compare_eq_gt.2 (by omega)
    rw [UnpackedFloat.normalize, hcompare]
    exact unsigned_roundWithAccuracy ..

theorem unsigned_square (h : u ≠ .notANumber) : Unsigned (mul Format.binary64 u u) := by
  cases u with
  | notANumber => exact absurd rfl h
  | infinity s | zero s => cases s <;> rfl
  | finite s m e hm => cases s <;> exact unsigned_roundWithAccuracy ..

theorem Unsigned.add (hu : Unsigned u) (hv : Unsigned v) :
    Unsigned (UnpackedFloat.add Format.binary64 u v) := by
  cases u with
  | notANumber => cases hu
  | infinity s =>
    obtain rfl : s = .positive := hu
    cases v with
    | notANumber => cases hv
    | infinity t =>
      obtain rfl : t = .positive := hv
      rfl
    | zero t | finite t => rfl
  | zero s =>
    obtain rfl : s = .positive := hu
    cases v with
    | notANumber => cases hv
    | infinity t | zero t =>
      obtain rfl : t = .positive := hv
      rfl
    | finite t => exact hv
  | finite s m e hm =>
    obtain rfl : s = .positive := hu
    cases v with
    | notANumber => cases hv
    | infinity t => exact hv
    | zero t => rfl
    | finite t n f hn =>
      obtain rfl : t = .positive := hv
      exact unsigned_normalize (m <<< (e - min e f).toNat + n <<< (f - min e f).toNat) _

theorem Unsigned.sqrt (h : Unsigned u) : Unsigned (UnpackedFloat.sqrt Format.binary64 u) := by
  cases u with
  | notANumber => cases h
  | infinity s | zero s =>
    obtain rfl : s = .positive := h
    rfl
  | finite s m e hm =>
    obtain rfl : s = .positive := h
    exact unsigned_roundWithAccuracy ..

theorem IsNumber.div (hx : IsNumber x) {s : Sign} {m : ℕ} {e : ℤ} {hm : 0 < m}
    (hy : y.toModel.unpack = .finite s m e hm) : IsNumber (x / y) := by
  show unpack Format.binary64 (pack Format.binary64 (UnpackedFloat.div Format.binary64
    x.toModel.unpack y.toModel.unpack)) ≠ .notANumber
  refine unpack_pack_ne_notANumber ?_
  rw [IsNumber] at hx
  rw [hy]
  cases hu : x.toModel.unpack with
  | notANumber => exact absurd hu hx
  | infinity t | zero t => nofun
  | finite t n f hn => exact roundWithAccuracy_ne_notANumber _ _ _ _

theorem isNumber_of_unsigned (h : Unsigned u) : IsNumber (.ofModel (.pack u)) :=
  unpack_pack_ne_notANumber h.ne_notANumber

theorem Unsigned.mul (hu : Unsigned u) {m : ℕ} {e : ℤ} {hm : 0 < m} :
    Unsigned (UnpackedFloat.mul Format.binary64 u (.finite .positive m e hm)) := by
  cases u with
  | notANumber => cases hu
  | infinity s | zero s =>
    obtain rfl : s = .positive := hu
    rfl
  | finite s n f hn =>
    obtain rfl : s = .positive := hu
    exact unsigned_roundWithAccuracy ..

theorem unsigned_ofScientific (m : ℕ) (e : ℤ) :
    Unsigned (UnpackedFloat.ofScientific Format.binary64 m e) := by
  unfold UnpackedFloat.ofScientific
  split
  · rfl
  · split
    · rfl
    · split
      · rfl
      · split <;> exact unsigned_roundWithAccuracy _ _ _

theorem unsigned_ofNat (n : ℕ) : Unsigned (Float.ofNat n).toModel.unpack := by
  show Unsigned (Float.ofScientific n false 0).toModel.unpack
  unfold Float.ofScientific
  split
  · have hone : ∃ m e, ∃ hm, Float.exactlyRepresentablePowersOfTen[0].toModel.unpack =
        .finite .positive m e hm := ⟨_, _, _, rfl⟩
    obtain ⟨m, e, hm, hone⟩ := hone
    show Unsigned (unpack Format.binary64 (pack Format.binary64 (UnpackedFloat.mul Format.binary64
      n.toUInt64.toFloat.toModel.unpack Float.exactlyRepresentablePowersOfTen[0].toModel.unpack)))
    rw [hone]
    exact unsigned_unpack_pack (unsigned_unpack_pack (unsigned_normalize _ _)).mul
  · exact unsigned_unpack_pack (unsigned_ofScientific n _)

theorem isNumber_ofInt (n : ℤ) : IsNumber (.ofInt n) := by
  cases n with
  | ofNat n => exact (unsigned_ofNat n).ne_notANumber
  | negSucc n =>
    have hnumber := (unsigned_ofNat (n + 1)).ne_notANumber
    refine unpack_pack_ne_notANumber ?_
    show (Float.ofNat (n + 1)).toModel.unpack.neg ≠ .notANumber
    generalize (Float.ofNat (n + 1)).toModel.unpack = u at *
    cases u with
    | notANumber => exact absurd rfl hnumber
    | infinity s | zero s | finite s => nofun

theorem compare_swap (hu : u ≠ .notANumber) (hv : v ≠ .notANumber) :
    ∃ o, u.compare v = some o ∧ v.compare u = some o.swap := by
  cases u with
  | notANumber => exact absurd rfl hu
  | infinity s =>
    cases v with
    | notANumber => exact absurd rfl hv
    | infinity t => cases s <;> cases t <;> exact ⟨_, rfl, rfl⟩
    | zero t | finite t => cases s <;> exact ⟨_, rfl, rfl⟩
  | zero s =>
    cases v with
    | notANumber => exact absurd rfl hv
    | infinity t | finite t => cases t <;> exact ⟨_, rfl, rfl⟩
    | zero t => exact ⟨_, rfl, rfl⟩
  | finite s m e hm =>
    have hswap (n : ℕ) (f : ℤ) :
        (compare f e).then (compare n m) = ((compare e f).then (compare m n)).swap := by
      rw [Ordering.swap_then, ← Std.OrientedOrd.eq_swap, ← Std.OrientedOrd.eq_swap]
    cases v with
    | notANumber => exact absurd rfl hv
    | infinity t => cases t <;> exact ⟨_, rfl, rfl⟩
    | zero t => cases s <;> exact ⟨_, rfl, rfl⟩
    | finite t n f hn =>
      cases s <;> cases t
      · exact ⟨_, rfl, congrArg (fun o : Ordering => some o.swap) (hswap n f)⟩
      · exact ⟨_, rfl, rfl⟩
      · exact ⟨_, rfl, rfl⟩
      · exact ⟨_, rfl, congrArg some (hswap n f)⟩

theorem lt_iff_compare : x < y ↔ x.toModel.unpack.compare y.toModel.unpack = some .lt := by
  have hlt : x < y ↔ (x.toModel.unpack.compare y.toModel.unpack == some .lt) = true := by
    show decide (x.toModel < y.toModel) = true ↔ _
    rw [decide_eq_true_iff]
    rfl
  rw [hlt, beq_iff_eq]

theorem le_iff_compare :
    x ≤ y ↔ (x.toModel.unpack.compare y.toModel.unpack).any (·.isLE) = true := by
  show decide (x.toModel ≤ y.toModel) = true ↔ _
  rw [decide_eq_true_iff]
  rfl

theorem lt_of_not_le (hx : IsNumber x) (hy : IsNumber y) (h : ¬x ≤ y) : y < x := by
  obtain ⟨o, ho, hswap⟩ := compare_swap hx hy
  rw [le_iff_compare, ho] at h
  rw [lt_iff_compare, hswap]
  cases o with
  | lt | eq => exact absurd rfl h
  | gt => rfl

theorem isNumber_of_lt (h : x < y) : IsNumber y := by
  intro hy
  rw [lt_iff_compare, hy] at h
  cases hx : x.toModel.unpack <;> rw [hx] at h <;> cases h

end Numeric

namespace Vec

open Numeric

theorem isNumber_steps (a : Int32) : IsNumber (steps a) := by
  have h16 : ∃ m e, ∃ hm, (16 : Float).toModel.unpack = .finite .positive m e hm := ⟨_, _, _, rfl⟩
  obtain ⟨m, e, hm, h16⟩ := h16
  exact (isNumber_ofInt _).div h16

theorem isNumber_length (v : Vec) : IsNumber v.length := by
  have hx := unsigned_unpack_pack (unsigned_square (isNumber_steps v.x))
  have hy := unsigned_unpack_pack (unsigned_square (isNumber_steps v.y))
  exact isNumber_of_unsigned (unsigned_unpack_pack (hx.add hy)).sqrt

theorem isNumber_strides (v : Vec) : IsNumber v.strides := by
  have hsteps := isNumber_steps v.x
  unfold strides
  split
  · rw [IsNumber, unpack_toModel_abs]
    rw [IsNumber] at hsteps
    cases hu : (steps v.x).toModel.unpack with
    | notANumber => exact absurd hu hsteps
    | infinity s | zero s | finite s => nofun
  · exact isNumber_length v

theorem lt_strides {x : Float} (hx : 0 < x) (v : Vec) (h : ¬v.strides ≤ x) : x < v.strides :=
  lt_of_not_le v.isNumber_strides (isNumber_of_lt hx) h

end Vec
end FieldShow
