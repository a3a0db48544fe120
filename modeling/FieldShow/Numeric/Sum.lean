/-! Sums over a list. -/

namespace FieldShow

def sumOf {α : Type} (f : α → Nat) : List α → Nat
  | [] => 0
  | a :: l => f a + sumOf f l

section

variable {α : Type} (f : α → Nat)

@[simp] theorem sumOf_nil : sumOf f [] = 0 := rfl

@[simp] theorem sumOf_cons (a : α) (l : List α) : sumOf f (a :: l) = f a + sumOf f l := rfl

@[simp] theorem sumOf_append (l₁ l₂ : List α) : sumOf f (l₁ ++ l₂) = sumOf f l₁ + sumOf f l₂ := by
  induction l₁ with
  | nil => exact (Nat.zero_add _).symm
  | cons a l ih => rw [List.cons_append, sumOf_cons, sumOf_cons, ih, Nat.add_assoc]

theorem sumOf_map {β : Type} (g : β → α) (l : List β) :
    sumOf f (l.map g) = sumOf (fun b => f (g b)) l := by
  induction l with
  | nil => rfl
  | cons b l ih => rw [List.map_cons, sumOf_cons, sumOf_cons, ih]

theorem sumOf_eq_zero_iff {l : List α} : sumOf f l = 0 ↔ ∀ a ∈ l, f a = 0 := by
  induction l with
  | nil => simp
  | cons a l ih => rw [sumOf_cons, Nat.add_eq_zero_iff, ih, List.forall_mem_cons]

theorem sumOf_take_le (n : Nat) (l : List α) : sumOf f (l.take n) ≤ sumOf f l := by
  have h := sumOf_append f (l.take n) (l.drop n)
  rw [List.take_append_drop] at h
  omega

end

end FieldShow
