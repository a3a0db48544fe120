/-! Finite sets of marchers, listed in ascending order. -/

namespace FieldShow

namespace PointSet

def insertList (n : Nat) : List Nat → List Nat
  | [] => [n]
  | m :: rest =>
    if n < m then n :: m :: rest else if n = m then m :: rest else m :: insertList n rest

theorem mem_insertList {k n : Nat} {l : List Nat} : k ∈ insertList n l ↔ k = n ∨ k ∈ l := by
  induction l with
  | nil => simp [insertList]
  | cons m rest ih => grind [insertList]

theorem pairwise_insertList {n : Nat} {l : List Nat} (h : l.Pairwise (· < ·)) :
    (insertList n l).Pairwise (· < ·) := by
  induction l with
  | nil => simp [insertList]
  | cons m rest ih =>
    obtain ⟨hm, hrest⟩ := List.pairwise_cons.1 h
    unfold insertList
    split
    · next hlt =>
      refine List.pairwise_cons.2 ⟨fun k hk => ?_, h⟩
      rcases List.mem_cons.1 hk with rfl | hk
      · exact hlt
      · exact Nat.lt_trans hlt (hm k hk)
    · split
      · exact h
      · refine List.pairwise_cons.2 ⟨fun k hk => ?_, ih hrest⟩
        rcases mem_insertList.1 hk with rfl | hk
        · omega
        · exact hm k hk

end PointSet

structure PointSet where
  toList : List Nat
  ascending : toList.Pairwise (· < ·)
deriving DecidableEq, Repr

namespace PointSet

instance : Membership Nat PointSet := ⟨fun s n => n ∈ s.toList⟩

def empty : PointSet := ⟨[], .nil⟩

def insert (n : Nat) (s : PointSet) : PointSet :=
  ⟨insertList n s.toList, pairwise_insertList s.ascending⟩

def single (n : Nat) : PointSet := empty.insert n

def union (s t : PointSet) : PointSet := t.toList.foldl (fun s n => s.insert n) s

theorem mem_insert {k n : Nat} {s : PointSet} : k ∈ s.insert n ↔ k = n ∨ k ∈ s := mem_insertList

theorem not_mem_empty (k : Nat) : ¬k ∈ empty := List.not_mem_nil

theorem mem_single {k n : Nat} : k ∈ single n ↔ k = n := by
  simp [single, mem_insert, not_mem_empty]

theorem mem_union {k : Nat} {s t : PointSet} : k ∈ s.union t ↔ k ∈ s ∨ k ∈ t := by
  have fold (l : List Nat) (s : PointSet) :
      k ∈ l.foldl (fun s n => s.insert n) s ↔ k ∈ s ∨ k ∈ l := by
    induction l generalizing s with
    | nil => simp
    | cons n l ih => grind [mem_insert]
  exact fold t.toList s

theorem eq_of_mem_iff {s t : PointSet} (h : ∀ k, k ∈ s ↔ k ∈ t) : s = t := by
  have lists {l m : List Nat} (hl : l.Pairwise (· < ·)) (hm : m.Pairwise (· < ·))
      (h : ∀ k, k ∈ l ↔ k ∈ m) : l = m := by
    induction l generalizing m with
    | nil =>
      cases m with
      | nil => rfl
      | cons b m => simpa using h b
    | cons a l ih =>
      cases m with
      | nil => simpa using h a
      | cons b m =>
        obtain ⟨ha, hl⟩ := List.pairwise_cons.1 hl
        obtain ⟨hb, hm'⟩ := List.pairwise_cons.1 hm
        have hab : a = b := by
          have h1 := (h a).1 (.head _)
          have h2 := (h b).2 (.head _)
          rcases List.mem_cons.1 h1 with rfl | h1
          · rfl
          · rcases List.mem_cons.1 h2 with rfl | h2
            · rfl
            · have := ha b h2
              have := hb a h1
              omega
        subst hab
        congr 1
        refine ih hl hm' fun k => ⟨fun hk => ?_, fun hk => ?_⟩
        · rcases List.mem_cons.1 ((h k).1 (.tail _ hk)) with rfl | h'
          · exact absurd (ha k hk) (Nat.lt_irrefl k)
          · exact h'
        · rcases List.mem_cons.1 ((h k).2 (.tail _ hk)) with rfl | h'
          · exact absurd (hb k hk) (Nat.lt_irrefl k)
          · exact h'
  cases s
  cases t
  congr
  exact lists (by assumption) (by assumption) h

end PointSet
end FieldShow
