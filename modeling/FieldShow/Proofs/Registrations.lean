import FieldShow.Mistake.Markers
import Mathlib.Data.List.Induction

/-!
Markers as the summary of a log. Of all that is registered under one mistake a marker keeps the
marchers, the symbol of the last registration and the last place in the program that was told. No
more is lost when two summaries are merged: the result is that of one log after the other.
-/

namespace FieldShow

instance : Std.Associative Marker.merge where
  assoc a b c := by
    have hpoints : (a.points.union b.points).union c.points =
        a.points.union (b.points.union c.points) :=
      PointSet.eq_of_mem_iff fun k => by simp only [PointSet.mem_union, or_assoc]
    simp only [Marker.merge, hpoints, Option.or_assoc]

namespace Markers

theorem eq_of_get? {m n : Markers} (h : ∀ k, m.get? k = n.get? k) : m = n := by
  have indexed : ∀ i : Fin 12, ∃ k ∈ Mistake.all, k.index = i := by decide
  obtain ⟨m⟩ := m
  obtain ⟨n⟩ := n
  congr 1
  refine Vector.ext fun i hi => ?_
  obtain ⟨k, -, hk⟩ := indexed ⟨i, hi⟩
  have hentry := h k
  simp only [get?, hk] at hentry
  exact hentry

theorem merge_empty (m : Markers) : m.merge .empty = m :=
  eq_of_get? fun k => by rw [get?_merge, get?_empty, Option.merge_none_right]

theorem empty_merge (m : Markers) : empty.merge m = m :=
  eq_of_get? fun k => by rw [get?_merge, get?_empty, Option.merge_none_left]

theorem merge_assoc (l m n : Markers) : (l.merge m).merge n = l.merge (m.merge n) :=
  eq_of_get? fun k => by
    simp only [get?_merge]
    exact Std.Associative.assoc ..

theorem merge_register (m n : Markers) (k : Mistake) (loc : Option Loc) (point : Nat)
    (symbol : Symbol) :
    (m.merge n).register k loc point symbol = m.merge (n.register k loc point symbol) := by
  refine eq_of_get? fun j => ?_
  by_cases hj : j = k
  · subst hj
    simp only [get?_register_self, get?_merge]
    exact Std.Associative.assoc ..
  · simp only [get?_register_of_ne hj, get?_merge]

end Markers

/-- A mistake that is noted: which one, where in the program, and by whom under which symbol. -/
structure Registration where
  kind : Mistake
  loc : Option Loc
  point : Nat
  symbol : Symbol
deriving DecidableEq, Repr

namespace Registration

def under (k : Mistake) (log : List Registration) : List Registration :=
  log.filter (·.kind = k)

variable {j k : Mistake} {log : List Registration} {r : Registration}

theorem under_self (log : List Registration) (r : Registration) :
    under r.kind (log ++ [r]) = under r.kind log ++ [r] := by simp [under]

theorem under_of_ne (h : r.kind ≠ k) (log : List Registration) :
    under k (log ++ [r]) = under k log := by simp [under, h]

theorem under_eq_nil_iff : under k log = [] ↔ ¬∃ r ∈ log, r.kind = k := by
  simp [under, List.filter_eq_nil_iff]

/-- A marker tells all of a log of one mistake that a marker can tell. -/
structure SumsUp (log : List Registration) (a : Marker) : Prop where
  points : ∀ p, p ∈ a.points ↔ ∃ r ∈ log, r.point = p
  symbol : (log.map symbol).getLast? = some a.symbol
  loc : (log.filterMap loc).getLast? = a.loc

theorem sumsUp_single (r : Registration) :
    SumsUp [r] (.single r.point r.symbol r.loc) where
  points p := by simp [Marker.single, PointSet.mem_single, eq_comm]
  symbol := rfl
  loc := by cases h : r.loc <;> simp [Marker.single, h]

theorem SumsUp.add {a : Marker} (h : SumsUp log a) (r : Registration) :
    SumsUp (log ++ [r]) (a.merge (.single r.point r.symbol r.loc)) where
  points p := by
    simp [Marker.merge, Marker.single, PointSet.mem_union, PointSet.mem_single, h.points,
      or_and_right, exists_or, eq_comm]
  symbol := by simp [Marker.merge, Marker.single]
  loc := by
    have hloc := h.loc
    cases hr : r.loc <;> simp [Marker.merge, Marker.single, List.filterMap_append, hr, hloc]

end Registration

namespace Markers

open Registration

def add (m : Markers) (r : Registration) : Markers := m.register r.kind r.loc r.point r.symbol

def ofLog (log : List Registration) : Markers := log.foldl add .empty

theorem ofLog_concat (log : List Registration) (r : Registration) :
    ofLog (log ++ [r]) = (ofLog log).add r := by simp [ofLog]

theorem merge_ofLog (log later : List Registration) :
    (ofLog log).merge (ofLog later) = ofLog (log ++ later) := by
  induction later using List.reverseRecOn with
  | nil => rw [List.append_nil]; exact merge_empty _
  | append_singleton later r ih =>
    rw [← List.append_assoc, ofLog_concat, ofLog_concat, ← ih]
    exact (merge_register ..).symm

theorem get?_ofLog (log : List Registration) (k : Mistake) :
    under k log = [] ∧ (ofLog log).get? k = none ∨
      ∃ a, (ofLog log).get? k = some a ∧ SumsUp (under k log) a := by
  induction log using List.reverseRecOn with
  | nil => exact .inl ⟨rfl, get?_empty k⟩
  | append_singleton log r ih =>
    rw [ofLog_concat, add]
    by_cases hr : r.kind = k
    · subst hr
      rw [get?_register_self, under_self]
      right
      obtain ⟨hnil, hnone⟩ | ⟨a, ha, hsum⟩ := ih
      · rw [hnil, hnone]
        exact ⟨_, rfl, sumsUp_single r⟩
      · rw [ha]
        exact ⟨_, rfl, hsum.add r⟩
    · rwa [get?_register_of_ne (Ne.symm hr), under_of_ne hr]

/-- A table of markers is a log summed up: a marker for just the mistakes that are registered, with
all who are registered, the last symbol and the last place that is told. Merging the tables of two
logs is going through one log after the other, so it does not matter which tables are merged first,
and the empty table adds nothing. -/
theorem registered_log :
    (∀ (log : List Registration) (k : Mistake),
      ((∃ a, (ofLog log).get? k = some a) ↔ ∃ r ∈ log, r.kind = k) ∧
        ∀ a, (ofLog log).get? k = some a → SumsUp (under k log) a) ∧
    (∀ log later : List Registration,
      (ofLog log).merge (ofLog later) = ofLog (log ++ later)) ∧
    (∀ l m n : Markers, (l.merge m).merge n = l.merge (m.merge n)) ∧
    ∀ m : Markers, empty.merge m = m ∧ m.merge .empty = m := by
  refine ⟨fun log k => ?_, merge_ofLog, merge_assoc, fun m => ⟨empty_merge m, merge_empty m⟩⟩
  obtain ⟨hnil, hnone⟩ | ⟨a, ha, hsum⟩ := get?_ofLog log k
  · rw [hnone]
    exact ⟨iff_of_false nofun (under_eq_nil_iff.1 hnil), nofun⟩
  · have hsome : ∃ r ∈ log, r.kind = k := by
      by_contra hnone
      have hlast := hsum.symbol
      rw [under_eq_nil_iff.2 hnone] at hlast
      cases hlast
    refine ⟨iff_of_true ⟨a, ha⟩ hsome, fun b hb => ?_⟩
    obtain rfl := Option.some.inj (ha.symm.trans hb)
    exact hsum

/-- The second registration tells no place, so that of the first is kept, but its symbol is not. -/
def lateLog : List Registration :=
  [⟨.outOfTime, some ⟨1, 1⟩, 4, .plain⟩, ⟨.timeLeft, none, 2, .solid⟩,
    ⟨.outOfTime, none, 2, .solid⟩]

theorem registered_log_late : ∃ a, (ofLog lateLog).get? .outOfTime = some a ∧
    (∀ p, p ∈ a.points ↔ p = 4 ∨ p = 2) ∧ a.symbol = .solid ∧ a.loc = some ⟨1, 1⟩ := by
  obtain ⟨hiff, hsums⟩ := registered_log.1 lateLog .outOfTime
  obtain ⟨a, ha⟩ := hiff.2 ⟨⟨.outOfTime, none, 2, .solid⟩, by decide, rfl⟩
  have hsum := hsums a ha
  refine ⟨a, ha, fun p => ?_, (Option.some.inj hsum.symbol).symm, hsum.loc.symm⟩
  rw [hsum.points]
  simp [under, lateLog, eq_comm]

end Markers
end FieldShow
