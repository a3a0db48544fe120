import FieldShow.Routine.Basic

/-!
Who is marked with a mistake. A registration marks one marcher with one mistake, and a union marks
whoever is marked on either side. In the course of a sheet mistakes that are noted mark the marcher
whose turn it is.
-/

namespace FieldShow.Markers

def points (m : Markers) (k : Mistake) : PointSet := ((m.get? k).map Marker.points).getD .empty

instance (m : Markers) (k : Mistake) (p : Nat) : Decidable (p ∈ m.points k) :=
  inferInstanceAs (Decidable (p ∈ (m.points k).toList))

variable {m n : Markers} {j k : Mistake} {p : Nat}

theorem points_eq_empty (h : m.get? k = none) : m.points k = .empty := by simp [points, h]

theorem not_mem_points (h : m.get? k = none) : ¬p ∈ m.points k := by
  rw [points_eq_empty h]
  exact PointSet.not_mem_empty p

@[simp] theorem not_mem_points_empty : ¬p ∈ empty.points k := not_mem_points (get?_empty k)

theorem mem_points_merge : p ∈ (m.merge n).points k ↔ p ∈ m.points k ∨ p ∈ n.points k := by
  unfold points
  rw [get?_merge]
  cases m.get? k with
  | none => cases n.get? k <;> simp [PointSet.not_mem_empty]
  | some a =>
    cases n.get? k with
    | none => simp [PointSet.not_mem_empty]
    | some b => simpa [Marker.merge] using PointSet.mem_union

theorem mem_points_register_self {loc : Option Loc} {q : Nat} {symbol : Symbol} :
    p ∈ (m.register k loc q symbol).points k ↔ p ∈ m.points k ∨ p = q := by
  unfold points
  rw [get?_register_self]
  cases m.get? k with
  | none => simp [Marker.single, PointSet.mem_single, PointSet.not_mem_empty]
  | some a => simp [Marker.merge, Marker.single, PointSet.mem_union, PointSet.mem_single]

theorem points_register_of_ne (h : j ≠ k) (loc : Option Loc) (q : Nat) (symbol : Symbol) :
    (m.register k loc q symbol).points j = m.points j := by
  unfold points
  rw [get?_register_of_ne h]

theorem get?_merge_eq_none : (m.merge n).get? k = none ↔ m.get? k = none ∧ n.get? k = none := by
  rw [get?_merge]
  cases m.get? k <;> cases n.get? k <;> simp

theorem mem_points_foldl (os : List Outcome) (m : Markers) :
    p ∈ (os.foldl (fun m o => m.merge o.markers) m).points k ↔
      p ∈ m.points k ∨ ∃ o ∈ os, p ∈ o.markers.points k := by
  induction os generalizing m with
  | nil => simp
  | cons o os ih =>
    rw [List.foldl_cons, ih, mem_points_merge, or_assoc]
    simp only [List.mem_cons, exists_eq_or_imp]

theorem get?_foldl_eq_none (os : List Outcome) (m : Markers) :
    (os.foldl (fun m o => m.merge o.markers) m).get? k = none ↔
      m.get? k = none ∧ ∀ o ∈ os, o.markers.get? k = none := by
  induction os generalizing m with
  | nil => simp
  | cons o os ih =>
    rw [List.foldl_cons, ih, get?_merge_eq_none, List.forall_mem_cons, and_assoc]

end FieldShow.Markers

namespace FieldShow.Progress

variable (c : Cue)

theorem noteAll_eq (ks : List Mistake) (s : Progress) :
    s.noteAll c ks = { s with markers := (s.noteAll c ks).markers } := by
  unfold noteAll
  induction ks generalizing s with
  | nil => rfl
  | cons k ks ih => exact ih (s.note c k)

theorem pos_noteAll (ks : List Mistake) (s : Progress) : (s.noteAll c ks).pos = s.pos := by
  rw [noteAll_eq]

theorem motions_noteAll (ks : List Mistake) (s : Progress) :
    (s.noteAll c ks).motions = s.motions := by
  rw [noteAll_eq]

theorem mem_points_noteAll (ks : List Mistake) (s : Progress) (k : Mistake) (p : Nat) :
    p ∈ (s.noteAll c ks).markers.points k ↔ p ∈ s.markers.points k ∨ p = c.point ∧ k ∈ ks := by
  unfold noteAll
  induction ks generalizing s with
  | nil => simp
  | cons j ks ih =>
    rw [List.foldl_cons, ih]
    by_cases hk : k = j
    · subst hk
      rw [note, Markers.mem_points_register_self]
      simp only [List.mem_cons, true_or, and_true, or_assoc]
      exact or_congr_right ⟨fun h => h.elim id And.left, .inl⟩
    · rw [note, Markers.points_register_of_ne hk, List.mem_cons, or_iff_right hk]

end FieldShow.Progress
