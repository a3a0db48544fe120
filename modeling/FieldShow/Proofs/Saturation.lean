import FieldShow.Geometry.Vec

/-!
Sums and differences that do not saturate are those of the integers.
-/

namespace FieldShow

namespace Numeric

def Fits (n : Int) : Prop := -2147483648 ≤ n ∧ n < 2147483648

instance (n : Int) : Decidable (Fits n) := inferInstanceAs (Decidable (_ ∧ _))

theorem fits_toInt (a : Int32) : Fits a.toInt := ⟨a.le_toInt, a.toInt_lt⟩

theorem toInt_saturate_of_fits {n : Int} (h : Fits n) : (saturate n).toInt = n := by
  rw [toInt_saturate]
  obtain ⟨hlo, hhi⟩ := h
  omega

theorem saturate_toInt (a : Int32) : saturate a.toInt = a :=
  Int32.toInt_inj.1 (toInt_saturate_of_fits (fits_toInt a))

/-- A part of a distance, between nothing and the whole. -/
def Part (a b : Int) : Prop := (0 ≤ a ∧ a ≤ b) ∨ (b ≤ a ∧ a ≤ 0)

theorem saturate_add_add {p a b : Int} (hp : Fits p) (hb : Fits b) (h : Part a b) :
    saturate ((saturate (p + a)).toInt + (saturate (b - a)).toInt) = saturate (p + b) := by
  unfold Part at h
  obtain ⟨hlo, hhi⟩ := hp
  obtain ⟨hblo, hbhi⟩ := hb
  have hba : Fits (b - a) := ⟨by omega, by omega⟩
  refine Int32.toInt_inj.1 ?_
  rw [toInt_saturate_of_fits hba]
  simp only [toInt_saturate]
  omega

theorem Fits.part {p a b : Int} (h : Fits (p + b)) (hp : Fits p) (hab : Part a b) :
    Fits (p + a) := by
  unfold Fits Part at *
  omega

theorem Part.fits_sub {a b c : Int} (ha : Part a c) (hb : Part b c) (hc : Fits c)
    (hmin : c ≠ -2147483648) : Fits (a - b) := by
  unfold Fits Part at *
  omega

end Numeric

open Numeric

namespace Vec

def AddFits (v w : Vec) : Prop := Fits (v.x.toInt + w.x.toInt) ∧ Fits (v.y.toInt + w.y.toInt)

def SubFits (v w : Vec) : Prop := Fits (v.x.toInt - w.x.toInt) ∧ Fits (v.y.toInt - w.y.toInt)

instance (v w : Vec) : Decidable (v.AddFits w) := inferInstanceAs (Decidable (_ ∧ _))

instance (v w : Vec) : Decidable (v.SubFits w) := inferInstanceAs (Decidable (_ ∧ _))

theorem toInt_zero_x : (0 : Vec).x.toInt = 0 := Int32.toInt_zero

theorem toInt_zero_y : (0 : Vec).y.toInt = 0 := Int32.toInt_zero

theorem eq_iff_toInt {v w : Vec} : v = w ↔ v.x.toInt = w.x.toInt ∧ v.y.toInt = w.y.toInt := by
  cases v
  cases w
  simp only [mk.injEq, Int32.toInt_inj]

theorem add_zero (v : Vec) : v + 0 = v := by
  rw [add_def, toInt_zero_x, toInt_zero_y, Int.add_zero, Int.add_zero, saturate_toInt,
    saturate_toInt]

theorem sub_zero (v : Vec) : v - 0 = v := by
  rw [sub_def, toInt_zero_x, toInt_zero_y, Int.sub_zero, Int.sub_zero, saturate_toInt,
    saturate_toInt]

theorem sub_self (v : Vec) : v - v = 0 := by
  rw [sub_def, Int.sub_self, Int.sub_self]
  rfl

theorem subFits_zero (v : Vec) : v.SubFits 0 := by
  rw [SubFits, toInt_zero_x, toInt_zero_y, Int.sub_zero, Int.sub_zero]
  exact ⟨fits_toInt _, fits_toInt _⟩

theorem addFits_zero (v : Vec) : v.AddFits 0 := by
  rw [AddFits, toInt_zero_x, toInt_zero_y, Int.add_zero, Int.add_zero]
  exact ⟨fits_toInt _, fits_toInt _⟩

theorem toInt_add {v w : Vec} (h : v.AddFits w) :
    (v + w).x.toInt = v.x.toInt + w.x.toInt ∧ (v + w).y.toInt = v.y.toInt + w.y.toInt :=
  ⟨toInt_saturate_of_fits h.1, toInt_saturate_of_fits h.2⟩

theorem toInt_sub {v w : Vec} (h : v.SubFits w) :
    (v - w).x.toInt = v.x.toInt - w.x.toInt ∧ (v - w).y.toInt = v.y.toInt - w.y.toInt :=
  ⟨toInt_saturate_of_fits h.1, toInt_saturate_of_fits h.2⟩

theorem add_sub_of_fits {v w : Vec} (h : w.SubFits v) : v + (w - v) = w := by
  have cancel (a b : Int) : a + (b - a) = b := by omega
  rw [add_def, (toInt_sub h).1, (toInt_sub h).2, cancel, cancel, saturate_toInt, saturate_toInt]

theorem addFits_sub {v w : Vec} (h : w.SubFits v) : v.AddFits (w - v) := by
  have cancel (a b : Int) : a + (b - a) = b := by omega
  rw [AddFits, (toInt_sub h).1, (toInt_sub h).2, cancel, cancel]
  exact ⟨fits_toInt _, fits_toInt _⟩

theorem add_add_sub {p v w : Vec} (h : p.AddFits w) (h' : v.SubFits w) :
    p + w + (v - w) = p + v := by
  have hadd := toInt_add h
  have hsub := toInt_sub h'
  rw [add_def (p + w), add_def p v, hadd.1, hadd.2, hsub.1, hsub.2]
  congr 2 <;> omega

theorem add_sub_self {p w : Vec} (h : p.AddFits w) : p + w - w = p := by
  have cancel (a b : Int) : a + b - b = a := by omega
  rw [sub_def, (toInt_add h).1, (toInt_add h).2, cancel, cancel, saturate_toInt, saturate_toInt]

def Part (v w : Vec) : Prop := Numeric.Part v.x.toInt w.x.toInt ∧ Numeric.Part v.y.toInt w.y.toInt

variable {p v w : Vec}

theorem part_zero : Part 0 0 := by
  have hzero : Numeric.Part 0 0 := .inl ⟨Int.le_refl 0, Int.le_refl 0⟩
  exact ⟨hzero, hzero⟩

/-- The rest of a displacement leads from a part of it to the whole, saturated or not. -/
theorem Part.add_rest (h : Part v w) (p : Vec) : p + v + (w - v) = p + w := by
  rw [add_def (p + v), add_def p v, add_def p w, sub_def]
  congr 1
  · exact saturate_add_add (fits_toInt _) (fits_toInt _) h.1
  · exact saturate_add_add (fits_toInt _) (fits_toInt _) h.2

theorem Part.addFits (h : Part v w) (hw : p.AddFits w) : p.AddFits v :=
  ⟨hw.1.part (fits_toInt _) h.1, hw.2.part (fits_toInt _) h.2⟩

theorem Part.subFits {u : Vec} (hv : Part v u) (hw : Part w u) (hx : u.x ≠ Int32.minValue)
    (hy : u.y ≠ Int32.minValue) : v.SubFits w := by
  have hmin {a : Int32} (h : a ≠ Int32.minValue) : a.toInt ≠ -2147483648 :=
    fun h' => h (Int32.toInt_inj.1 h')
  exact ⟨hv.1.fits_sub hw.1 (fits_toInt _) (hmin hx), hv.2.fits_sub hw.2 (fits_toInt _) (hmin hy)⟩

theorem addFits_of_rest (hv : p.AddFits v) (hwv : w.SubFits v) (hrest : (p + v).AddFits (w - v)) :
    p.AddFits w := by
  have hadd := toInt_add hv
  have hsub := toInt_sub hwv
  unfold AddFits at hrest ⊢
  rw [hadd.1, hadd.2, hsub.1, hsub.2] at hrest
  have cancel (a b c : Int) : a + b + (c - b) = a + c := by omega
  rwa [cancel, cancel] at hrest

end Vec
end FieldShow
