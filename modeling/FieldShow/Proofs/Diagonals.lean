import FieldShow.Proofs.Doglegs

/-!
The legs of a way along an axis and a diagonal. They are worked out without a result that
saturates, even if the way reaches from end to end of the range, and they make it up exactly.
-/

namespace FieldShow

namespace Numeric

def fitted? (n : Int) : Option Int32 := if Fits n then some (.ofInt n) else none

theorem fitted?_of_fits {n : Int} (h : Fits n) : fitted? n = some (saturate n) := by
  have hword : Int32.ofInt n = saturate n := by
    rw [← Int32.toInt_inj, toInt_saturate_of_fits h]
    exact Int32.toInt_ofInt_of_le h.1 h.2
  rw [fitted?, if_pos h, hword]

theorem Part.fits_rest {a b : Int} (h : Part a b) (hb : Fits b) : Fits (b - a) := by
  unfold Part Fits at *
  omega

end Numeric

open Numeric

namespace Vec

def turned? (opposed : Bool) (a : Int32) : Option Int32 :=
  if opposed then fitted? (-a.toInt) else some a

/-- The same calculation as `legs`, which comes to nothing as soon as a result is not one of 32
bits. -/
def exactLegs? (v : Vec) : Option Legs :=
  let opposed := (v.x < 0) != (v.y < 0)
  if v.y.toInt.natAbs < v.x.toInt.natAbs then do
    let dx ← turned? opposed v.y
    let x ← fitted? (v.x.toInt - dx.toInt)
    return ⟨⟨x, 0⟩, ⟨dx, v.y⟩⟩
  else do
    let dy ← turned? opposed v.x
    let y ← fitted? (v.y.toInt - dy.toInt)
    return ⟨⟨0, y⟩, ⟨v.x, dy⟩⟩

variable {a b : Int32} {opposed : Bool}

theorem turned?_eq (hopposed : opposed ↔ ¬(a.toInt < 0 ↔ b.toInt < 0))
    (h : a.toInt.natAbs ≤ b.toInt.natAbs) :
    turned? opposed a = some (if opposed then saturate (-a.toInt) else a) := by
  -- the least number of 32 bits is never turned: no component of the other sign is as large
  unfold turned?
  split
  · next hturn =>
    have hsigns := hopposed.1 hturn
    have hfits := fits_toInt b
    apply fitted?_of_fits
    unfold Fits at *
    omega
  · rfl

theorem fitted?_rest (hopposed : opposed ↔ ¬(a.toInt < 0 ↔ b.toInt < 0))
    (h : a.toInt.natAbs ≤ b.toInt.natAbs) :
    fitted? (b.toInt - (if opposed then saturate (-a.toInt) else a).toInt) =
      some (saturate (b.toInt - (if opposed then saturate (-a.toInt) else a).toInt)) :=
  fitted?_of_fits ((turned hopposed h).2.fits_rest (fits_toInt b))

theorem exactLegs?_eq (v : Vec) : v.exactLegs? = some v.legs := by
  have hopposed : (decide (v.x < 0) != decide (v.y < 0)) ↔ ¬(v.x.toInt < 0 ↔ v.y.toInt < 0) := by
    simp [Int32.lt_iff_toInt_lt]
  unfold exactLegs? legs
  dsimp only
  split
  · next hless =>
    have hopposed := hopposed.trans (not_congr iff_comm)
    have hle := Nat.le_of_lt hless
    rw [turned?_eq hopposed hle, Option.bind_eq_bind, Option.bind_some, fitted?_rest hopposed hle]
    rfl
  · next hless =>
    have hle := Nat.le_of_not_lt hless
    rw [turned?_eq hopposed hle, Option.bind_eq_bind, Option.bind_some, fitted?_rest hopposed hle]
    rfl

/-- The diagonal takes as much of both components as the smaller one has, the axis what the larger
one has more, and every result on the way to them is exact. -/
theorem legs_exact (v : Vec) :
    v.exactLegs? = some v.legs ∧
      v.Split v.legs.straight v.legs.diagonal ∧
      v.legs.diagonal.x.toInt.natAbs = min v.x.toInt.natAbs v.y.toInt.natAbs ∧
      v.legs.diagonal.y.toInt.natAbs = min v.x.toInt.natAbs v.y.toInt.natAbs ∧
      v.legs.diagonal.Part v ∧
      v.legs.straight.OnAxis ∧ v.legs.straight.Part v ∧
      (v.legs.straight.x.toInt.natAbs + v.legs.straight.y.toInt.natAbs : Int) =
        ((v.x.toInt.natAbs : Int) - v.y.toInt.natAbs).natAbs := by
  have hsplit := (split_legs v).symm
  have haxis := (straight_legs v).2
  obtain ⟨hpart, hdiagonal⟩ := diagonal_legs v
  have hlengths : v.legs.diagonal.x.toInt.natAbs = min v.x.toInt.natAbs v.y.toInt.natAbs ∧
      v.legs.diagonal.y.toInt.natAbs = min v.x.toInt.natAbs v.y.toInt.natAbs ∧
      (v.legs.straight.x.toInt.natAbs + v.legs.straight.y.toInt.natAbs : Int) =
        ((v.x.toInt.natAbs : Int) - v.y.toInt.natAbs).natAbs := by
    obtain ⟨hx, hy, hrest⟩ := hsplit
    unfold OnDiagonal at hdiagonal
    unfold Vec.Part Numeric.Part at hpart hrest
    rcases haxis with haxis | haxis
    · rw [haxis, Int32.toInt_zero] at hx ⊢
      omega
    · rw [haxis, Int32.toInt_zero] at hy ⊢
      omega
  exact ⟨v.exactLegs?_eq, hsplit, hlengths.1, hlengths.2.1, hpart, haxis, hsplit.part, hlengths.2.2⟩

end Vec
end FieldShow
