import FieldShow.Proofs.Walking

/-!
The pace of a line. What it has covered after each of its beats is a share of the whole that is
rounded down, worked out without a loss in 64 bits, so no beat is more than one unit longer than
another, and a line that is cut short never comes past its end.
-/

namespace FieldShow

open Numeric

/-- What one axis of a line for `n` beats has covered after each of them. -/
structure Paced (n : Nat) (v : Int32) (covered : Nat → Int32) : Prop where
  /-- The product that is divided is one of 64 bits. -/
  word : ∀ k ≤ n, (v.toInt64 * Int64.ofNat k).toInt = v.toInt * k
  /-- The quotient is rounded down, and it is one of 32 bits. -/
  share : ∀ k ≤ n, (covered k).toInt * n ≤ v.toInt * k ∧ v.toInt * k < ((covered k).toInt + 1) * n
  zero : covered 0 = 0
  whole : covered n = v
  onward : ∀ j k, j ≤ k → k ≤ n → Numeric.Part (covered j).toInt (covered k).toInt
  beat : ∀ k < n, (covered (k + 1)).toInt - (covered k).toInt = v.toInt / n ∨
    (covered (k + 1)).toInt - (covered k).toInt = v.toInt / n + 1
  even : ∀ j < n, ∀ k < n, ((covered (j + 1)).toInt - (covered j).toInt).natAbs ≤
    ((covered (k + 1)).toInt - (covered k).toInt).natAbs + 1

theorem toInt_mul_ofNat (v : Int32) {k : Nat} (hk : k < 4294967296) :
    (v.toInt64 * Int64.ofNat k).toInt = v.toInt * k := by
  have hcount : (Int64.ofNat k).toInt = k := Int64.toInt_ofNat_of_lt (by omega)
  have hlow : -2147483648 * (k : Int) ≤ v.toInt * k :=
    Int.mul_le_mul_of_nonneg_right v.le_toInt (Int.natCast_nonneg k)
  have hhigh : v.toInt * k ≤ 2147483648 * (k : Int) :=
    Int.mul_le_mul_of_nonneg_right (Int.le_of_lt v.toInt_lt) (Int.natCast_nonneg k)
  rw [Int64.toInt_mul, hcount, Int32.toInt_toInt64]
  apply Int.bmod_eq_of_le <;> omega

theorem share_succ (v : Int) {n : Nat} (hn : 0 < n) (k : Nat) :
    v * (k + 1 : Nat) / n - v * k / n = v / n ∨ v * (k + 1 : Nat) / n - v * k / n = v / n + 1 := by
  -- one beat more covers the share of one beat, and what is rounded off may make up one unit
  have hn : (0 : Int) < n := Int.natCast_pos.2 hn
  have hsum : v * (k + 1 : Nat) = v * k + v := by
    rw [Int.natCast_add, Int.mul_add]
    exact congrArg (v * k + ·) (Int.mul_one v)
  rw [hsum]
  generalize v * k = w
  have hlow : w / n + v / n ≤ (w + v) / n := by
    apply Int.le_ediv_of_mul_le hn
    rw [Int.add_mul]
    exact Int.add_le_add (Int.ediv_mul_le w (Int.ne_of_gt hn)) (Int.ediv_mul_le v (Int.ne_of_gt hn))
  have hhigh : (w + v) / n < w / n + 1 + (v / n + 1) := by
    apply Int.ediv_lt_of_lt_mul hn
    rw [Int.add_mul]
    exact Int.add_lt_add (Int.lt_ediv_add_one_mul_self w hn) (Int.lt_ediv_add_one_mul_self v hn)
  omega

theorem paced_share (v : Int32) {n : Nat} (hn : 0 < n) (hword : n < 4294967296) :
    Paced n v fun k => .ofInt (v.toInt * k / n) := by
  have hpos : (0 : Int) < n := Int.natCast_pos.2 hn
  have hbeat (k : Nat) (hk : k + 1 ≤ n) :
      (Int32.ofInt (v.toInt * (k + 1 : Nat) / n)).toInt - (Int32.ofInt (v.toInt * k / n)).toInt =
          v.toInt / n ∨
        (Int32.ofInt (v.toInt * (k + 1 : Nat) / n)).toInt - (Int32.ofInt (v.toInt * k / n)).toInt =
          v.toInt / n + 1 := by
    rw [toInt_ofInt_share v hn hk, toInt_ofInt_share v hn (Nat.le_of_lt hk)]
    exact share_succ v.toInt hn k
  constructor
  case word => exact fun k hk => toInt_mul_ofNat v (Nat.lt_of_le_of_lt hk hword)
  case share =>
    intro k hk
    rw [toInt_ofInt_share v hn hk]
    exact ⟨Int.ediv_mul_le _ (Int.ne_of_gt hpos), Int.lt_ediv_add_one_mul_self _ hpos⟩
  case zero =>
    rw [share_zero]
    rfl
  case whole => rw [share_whole v.toInt hn, Int32.ofInt_toInt]
  case onward =>
    intro j k hj hk
    rw [toInt_ofInt_share v hn hk, toInt_ofInt_share v hn (Nat.le_trans hj hk)]
    exact share_part v.toInt hn hj
  case beat => exact hbeat
  case even =>
    intro j hj k hk
    rcases hbeat j hj with hfirst | hfirst <;> rcases hbeat k hk with hsecond | hsecond <;>
      rw [hfirst, hsecond] <;> omega

namespace Motion

variable {shift : Vec} {span : Nat}

theorem destination_clip_lineFacing (hspan : 0 < span) (facing : Float) (k : Nat) (p : Vec) :
    ((lineFacing span shift facing).clip k).destination p =
      p + (lineFacing span shift facing).path.offset (min span k) := by
  have hlaid := (fresh_lineFacing span shift facing).laid.clip k
  rw [destination, hlaid.rewind, Walk.toEnd]
  split
  · rw [Walk.seek_laid hlaid (Nat.le_refl _)]
    simp only [placeFrom, clip, lineFacing, Path.offset_zero, Vec.sub_zero]
  · next hnone =>
    -- a line that is laid out for beats does not jump, even if none of them is left
    obtain ⟨n, rfl⟩ := Nat.exists_eq_succ_of_ne_zero (Nat.ne_of_gt hspan)
    have hmin : min (n + 1) k = 0 := Nat.eq_zero_of_not_pos hnone
    rw [hmin, Path.offset_zero]
    rfl

/-- A line is paced along both axes, and wherever it is cut, it ends on its way. -/
theorem paced_line (hspan : 0 < span) (hword : span < 4294967296) (shift : Vec) (facing : Float) :
    let line := lineFacing span shift facing
    Paced span shift.x (fun k => (line.path.offset k).x) ∧
      Paced span shift.y (fun k => (line.path.offset k).y) ∧
      ∀ k p, (line.clip k).destination p = p + line.path.offset (min span k) ∧
        (line.path.offset (min span k)).Part shift := by
  intro line
  have hoffset (k : Nat) : line.path.offset k =
      ⟨.ofInt (shift.x.toInt * k / span), .ofInt (shift.y.toInt * k / span)⟩ :=
    if_neg (Nat.ne_of_gt hspan)
  refine ⟨?_, ?_, fun k p => ⟨destination_clip_lineFacing hspan facing k p, ?_⟩⟩
  · simp only [hoffset]
    exact paced_share shift.x hspan hword
  · simp only [hoffset]
    exact paced_share shift.y hspan hword
  · have hpart := Path.offset_part shift facing (Nat.min_le_left span k) (Nat.le_refl span)
    rwa [Path.offset_whole shift hspan] at hpart

theorem paced_line_widest :
    let line := lineFacing 4294967295 ⟨-2147483648, 2147483647⟩ 0
    ((-2147483648 : Int32).toInt64 * Int64.ofNat 4294967295).toInt = -9223372034707292160 ∧
      (line.path.offset 4294967295).x = -2147483648 ∧
      (line.path.offset 4294967295).y = 2147483647 ∧
      (line.clip 3).destination ⟨10, 10⟩ = ⟨8, 11⟩ := by
  intro line
  obtain ⟨hx, hy, hcut⟩ := @paced_line 4294967295 (by decide) (by decide)
    ⟨-2147483648, 2147483647⟩ 0
  exact ⟨hx.word _ (Nat.le_refl _), hx.whole, hy.whole, (hcut 3 ⟨10, 10⟩).1.trans (by decide)⟩

end Motion
end FieldShow
