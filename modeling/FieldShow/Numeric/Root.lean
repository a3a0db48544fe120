import FieldShow.Numeric.Exact

/-!
Square roots of natural numbers: the integer part, bit by bit, and the nearest binary64 number.
The main statement is that the integer part lies between the root and the number below it.
-/

namespace FieldShow.Numeric

/-- The integer part of the square root of a number below `4 ^ k`. -/
def floorRoot : Nat → Nat → Nat
  | 0, _ => 0
  | k + 1, n =>
    let r := 2 * floorRoot k (n / 4)
    if (r + 1) * (r + 1) ≤ n then r + 1 else r

theorem floorRoot_bounds {k n : Nat} (h : n < Nat.pow 4 k) :
    floorRoot k n * floorRoot k n ≤ n ∧ n < (floorRoot k n + 1) * (floorRoot k n + 1) := by
  induction k generalizing n with
  | zero =>
    have : n = 0 := by simpa using h
    simp [floorRoot, this]
  | succ k ih =>
    have h : n < Nat.pow 4 k * 4 := h
    obtain ⟨hlo, hhi⟩ := ih (n := n / 4) (by omega)
    have below : 2 * floorRoot k (n / 4) * (2 * floorRoot k (n / 4)) ≤ n := by
      have := Nat.mul_le_mul_left 4 hlo
      grind
    have above : n < (2 * floorRoot k (n / 4) + 2) * (2 * floorRoot k (n / 4) + 2) := by
      have := Nat.mul_le_mul_left 4 (Nat.succ_le_of_lt hhi)
      grind
    simp only [floorRoot]
    split
    · next hle => exact ⟨hle, above⟩
    · next hle => exact ⟨below, Nat.lt_of_not_le hle⟩

/-- The binary64 number nearest to the square root of `n`. A last bit that tells whether anything
is left takes the place of all the bits that are cut off, so that no root is taken for a tie. -/
def root (n : Nat) : Float :=
  let scaled := n <<< 128
  let r := floorRoot (n.log2 / 2 + 65) scaled
  ofScaled (2 * r + if r * r = scaled then 0 else 1) 65

end FieldShow.Numeric
