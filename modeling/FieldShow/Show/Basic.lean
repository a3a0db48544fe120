import FieldShow.Continuity.Basic
import FieldShow.Fault
import FieldShow.Show.Symbol

/-!
A show: formations in the order of performance, with the continuities that lead from one to the
next. A marcher is an index into the placements of every sheet.
-/

namespace FieldShow

/-- Where a marcher stands on a sheet. Reference points that are not set lie where it stands. -/
structure Placement where
  position : Vec
  refs : Vector (Option Vec) 3 := .replicate 3 none
  symbol : Symbol := .plain
deriving DecidableEq, Repr

structure Book where
  table : Vector (Option Program) 8
deriving DecidableEq, Repr

structure Sheet where
  name : String
  beats : UInt32
  performed : Bool
  placements : List Placement
  book : Book
deriving DecidableEq, Repr

structure Show where
  sheets : List Sheet
deriving DecidableEq, Repr

namespace Placement

/-- A numbered reference point; number zero is the position itself. -/
def reference (p : Placement) (n : Nat) : Vec :=
  if n = 0 then p.position else (p.refs[n - 1]?).join.getD p.position

def places (p : Placement) : List Vec := p.position :: p.refs.toList.filterMap id

end Placement

namespace Book

def empty : Book := ⟨.replicate 8 none⟩

def get? (b : Book) (s : Symbol) : Option Program := b.table[s.index]

def insert (b : Book) (s : Symbol) (p : Program) : Book := ⟨b.table.set s.index (some p)⟩

def entries (b : Book) : List (Symbol × Program) :=
  Symbol.all.filterMap fun s => (b.get? s).map (s, ·)

theorem get?_empty (s : Symbol) : empty.get? s = none := by simp [empty, get?]

theorem get?_insert_self (b : Book) (s : Symbol) (p : Program) :
    (b.insert s p).get? s = some p := by
  simp [insert, get?]

theorem get?_insert_of_ne {s t : Symbol} (h : s ≠ t) (b : Book) (p : Program) :
    (b.insert s p).get? t = b.get? t := by
  have : s.index.val ≠ t.index.val := fun e => h (Symbol.index_inj (Fin.ext e))
  simp [insert, get?, this]

end Book

namespace Sheet

def placement (s : Sheet) (point : Nat) : Except Fault Placement :=
  match s.placements[point]? with
  | some p => .ok p
  | none => .error (.pointOutOfRange point s.name s.placements.length)

def symbols (s : Sheet) : List Symbol :=
  Symbol.all.filter fun symbol => s.placements.any (·.symbol = symbol)

end Sheet

namespace Show

def size (s : Show) : Nat := (s.sheets.head?.map (·.placements.length)).getD 0

def sheet (s : Show) (index : Nat) : Except Fault Sheet :=
  match s.sheets[index]? with
  | some sheet => .ok sheet
  | none => .error (.sheetOutOfRange index s.sheets.length)

def performed (s : Show) : List (Nat × Sheet) :=
  (s.sheets.zipIdx.filter (·.1.performed)).map fun (sheet, i) => (i, sheet)

def nextPerformed? (s : Show) (index : Nat) : Option Sheet :=
  (s.sheets.drop (index + 1)).find? (·.performed)

end Show
end FieldShow
