import FieldShow.Mistake.Basic
import FieldShow.Mistake.PointSet
import FieldShow.Continuity.Basic
import FieldShow.Show.Symbol

/-!
The mistakes on one sheet, summed up kind by kind: who made it, and where it was made last.
-/

namespace FieldShow

structure Marker where
  points : PointSet
  symbol : Symbol
  loc : Option Loc
deriving DecidableEq, Repr

namespace Marker

def blank : Marker := ⟨.empty, .plain, none⟩

/-- One more who made the mistake; where the program does not tell the place, the last one stays. -/
def add (m : Marker) (loc : Option Loc) (point : Nat) (symbol : Symbol) : Marker :=
  let m := { m with symbol := symbol }
  let m := if loc.isSome then { m with loc := loc } else m
  { m with points := m.points.insert point }

/-- The later marker tells the symbol, and the place in the program if it knows one. -/
def merge (earlier later : Marker) : Marker :=
  ⟨earlier.points.union later.points, later.symbol, later.loc.or earlier.loc⟩

def single (point : Nat) (symbol : Symbol) (loc : Option Loc) : Marker :=
  ⟨.single point, symbol, loc⟩

theorem blank_add (loc : Option Loc) (point : Nat) (symbol : Symbol) :
    blank.add loc point symbol = .single point symbol loc := by cases loc <;> rfl

theorem add_eq_merge (m : Marker) (loc : Option Loc) (point : Nat) (symbol : Symbol) :
    m.add loc point symbol = m.merge (.single point symbol loc) := by cases loc <;> rfl

end Marker

structure Markers where
  table : Vector (Option Marker) 12
deriving DecidableEq, Repr

namespace Markers

def empty : Markers := ⟨.replicate 12 none⟩

def get? (m : Markers) (k : Mistake) : Option Marker := m.table[k.index]

def register (m : Markers) (k : Mistake) (loc : Option Loc) (point : Nat) (symbol : Symbol) :
    Markers :=
  ⟨m.table.set k.index (((m.get? k).getD .blank).add loc point symbol)⟩

def merge (m n : Markers) : Markers := ⟨m.table.zipWith (Option.merge Marker.merge) n.table⟩

def entries (m : Markers) : List (Mistake × Marker) :=
  Mistake.all.filterMap fun k => (m.get? k).map (k, ·)

def isEmpty (m : Markers) : Bool := m.entries.isEmpty

def size (m : Markers) : Nat := m.entries.length

theorem get?_empty (k : Mistake) : empty.get? k = none := by simp [empty, get?]

theorem get?_merge (m n : Markers) (k : Mistake) :
    (m.merge n).get? k = Option.merge Marker.merge (m.get? k) (n.get? k) := by
  simp [merge, get?]

theorem get?_register_self (m : Markers) (k : Mistake) (loc : Option Loc) (point : Nat)
    (symbol : Symbol) : (m.register k loc point symbol).get? k =
      Option.merge Marker.merge (m.get? k) (some (.single point symbol loc)) := by
  have hset : (m.register k loc point symbol).get? k =
      some (((m.get? k).getD .blank).add loc point symbol) := by simp [register, get?]
  rw [hset]
  cases m.get? k with
  | none => exact congrArg some (Marker.blank_add loc point symbol)
  | some a => exact congrArg some (a.add_eq_merge loc point symbol)

theorem get?_register_of_ne {j k : Mistake} (h : j ≠ k) (m : Markers) (loc : Option Loc)
    (point : Nat) (symbol : Symbol) : (m.register k loc point symbol).get? j = m.get? j := by
  have : k.index.val ≠ j.index.val := fun e => h (Mistake.index_inj (Fin.ext e)).symm
  simp [register, get?, this]

end Markers
end FieldShow
