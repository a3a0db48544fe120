import FieldShow.Proofs.Saturation
import FieldShow.Proofs.Span

/-!
What a line covers after some of its beats. It never covers more than the whole and never turns
back, so going on from any beat comes to the same place as going there at once.
-/

namespace FieldShow

open Numeric

theorem share_mono {v : Int} (hv : 0 ≤ v) {n j k : Nat} (hn : 0 < n) (h : j ≤ k) :
    v * j / n ≤ v * k / n :=
  Int.ediv_le_ediv (Int.natCast_pos.2 hn) (Int.mul_le_mul_of_nonneg_left (Int.ofNat_le.2 h) hv)

theorem share_anti {v : Int} (hv : v ≤ 0) {n j k : Nat} (hn : 0 < n) (h : j ≤ k) :
    v * k / n ≤ v * j / n :=
  Int.ediv_le_ediv (Int.natCast_pos.2 hn) (Int.mul_le_mul_of_nonpos_left hv (Int.ofNat_le.2 h))

theorem share_zero (v : Int) (n : Nat) : v * (0 : Nat) / n = 0 := by simp

theorem share_whole (v : Int) {n : Nat} (hn : 0 < n) : v * n / n = v :=
  Int.mul_ediv_cancel v (Int.natCast_ne_zero.2 (Nat.ne_of_gt hn))

theorem share_part (v : Int) {n j k : Nat} (hn : 0 < n) (h : j ≤ k) :
    Numeric.Part (v * j / n) (v * k / n) := by
  have hzero := share_zero v n
  by_cases hv : 0 ≤ v
  · have h₁ := share_mono hv hn (Nat.zero_le j)
    exact .inl ⟨by omega, share_mono hv hn h⟩
  · have hv : v ≤ 0 := Int.le_of_not_le hv
    have h₁ := share_anti hv hn (Nat.zero_le j)
    exact .inr ⟨share_anti hv hn h, by omega⟩

theorem toInt_ofInt_share (v : Int32) {n k : Nat} (hn : 0 < n) (hk : k ≤ n) :
    (Int32.ofInt (v.toInt * k / n)).toInt = v.toInt * k / n := by
  have hpart := share_part v.toInt hn hk
  rw [share_whole _ hn] at hpart
  unfold Numeric.Part at hpart
  have := v.le_toInt
  have := v.toInt_lt
  exact Int32.toInt_ofInt_of_le (by omega) (by omega)

namespace Path

@[simp] theorem offset_zero (path : Path) : path.offset 0 = 0 := by
  cases path with
  | line shift span facing =>
    simp only [offset]
    split
    · rfl
    · simp only [share_zero]
      rfl
  | stand | arc => rfl

theorem offset_whole (shift : Vec) {span : Nat} (h : 0 < span) (facing : Float) :
    (line shift span facing).offset span = shift := by
  simp only [offset, if_neg (Nat.ne_of_gt h), share_whole _ h, Int32.ofInt_toInt]

theorem offset_part (shift : Vec) {span j k : Nat} (facing : Float) (hj : j ≤ k) (hk : k ≤ span) :
    ((line shift span facing).offset j).Part ((line shift span facing).offset k) := by
  by_cases hn : span = 0
  · simp only [offset, if_pos hn]
    exact Vec.part_zero
  · have hpos : 0 < span := Nat.pos_of_ne_zero hn
    have hj' := Nat.le_trans hj hk
    simp only [offset, if_neg hn, Vec.Part, toInt_ofInt_share _ hpos hk,
      toInt_ofInt_share _ hpos hj']
    exact ⟨share_part _ hpos hj, share_part _ hpos hj⟩

end Path

namespace Motion

theorem Laid.offset_part {m : Motion} (hm : m.Laid) {j k : Nat} (hj : j ≤ k) (hk : k ≤ m.beats) :
    (m.path.offset j).Part (m.path.offset k) := by
  obtain ⟨beats, cursor, path⟩ := m
  cases path with
  | line shift span facing =>
    exact Path.offset_part shift facing hj (Nat.le_trans hk (hm.le_span span rfl))
  | stand | arc => exact Vec.part_zero

theorem destination_lineFacing (n : Nat) (v : Vec) (facing : Float) (p : Vec) :
    (lineFacing n v facing).destination p = p + v := by
  by_cases hn : 0 < n
  · simp only [destination, Walk.toEnd, rewind, lineFacing, if_pos hn, Walk.seek, Nat.min_self,
      Path.offset_zero, Path.offset_whole v hn, Vec.sub_zero]
  · obtain rfl : n = 0 := by omega
    rfl

theorem destination_line (n : Nat) (v p : Vec) : (line n v).destination p = p + v :=
  destination_lineFacing ..

theorem destination_stand (n : Nat) (facing : Float) (p : Vec) :
    (stand n facing).destination p = p := by
  by_cases hn : 0 < n <;> simp [destination, Walk.toEnd, rewind, stand, Walk.seek, hn]

end Motion
end FieldShow
