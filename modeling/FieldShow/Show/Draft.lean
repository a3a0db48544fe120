import FieldShow.Show.Validity

/-! Sheets in the making, one addition after the other. -/

namespace FieldShow

structure Draft where
  name : String
  beats : UInt32
  performed : Bool := true
  placements : List Placement := []
  book : Book := .empty

namespace Draft

/-- The white space of Unicode. -/
def blank (c : Char) : Bool :=
  let n := c.toNat
  (0x9 ≤ n && n ≤ 0xD) || n = 0x20 || n = 0x85 || n = 0xA0 || n = 0x1680 ||
    (0x2000 ≤ n && n ≤ 0x200A) || n = 0x2028 || n = 0x2029 || n = 0x202F || n = 0x205F ||
    n = 0x3000

def place (d : Draft) (position : Vec) (symbol : Symbol) : Draft :=
  { d with placements := d.placements ++ [{ position, symbol }] }

theorem pred_lt_three {number : Nat} (h : 1 ≤ number ∧ number ≤ 3) : number - 1 < 3 := by omega

def reference (d : Draft) (point number : Nat) (position : Vec) : Except Fault Draft :=
  if h : 1 ≤ number ∧ number ≤ 3 then
    match d.placements[point]? with
    | some p =>
      .ok { d with
        placements := d.placements.set point
          { p with refs := p.refs.set (number - 1) (some position) (pred_lt_three h) } }
    | none => .error (.referenceToMissingPoint point d.placements.length)
  else .error (.referenceOutOfRange number 3)

def continuity (d : Draft) (symbol : Symbol) (program : Program) : Except Fault Draft :=
  match d.book.get? symbol with
  | some _ => .error (.repeatedSymbol symbol.name)
  | none => .ok { d with book := d.book.insert symbol program }

def finish (d : Draft) : Except Fault Sheet :=
  if d.name.toList.all blank then .error .blankName
  else .ok ⟨d.name, d.beats, d.performed, d.placements, d.book⟩

end Draft
end FieldShow
