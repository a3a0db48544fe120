/-! The dot symbols of a formation. Marchers of one symbol share a continuity. -/

namespace FieldShow

inductive Symbol where
  | plain | solid | backslash | slash | cross | solidBackslash | solidSlash | solidCross
deriving DecidableEq, Repr, Inhabited

namespace Symbol

/-- In the order of declaration, which is the order of every listing. -/
def all : List Symbol :=
  [plain, solid, backslash, slash, cross, solidBackslash, solidSlash, solidCross]

def index : Symbol → Fin 8
  | plain => ⟨0, by decide⟩ | solid => ⟨1, by decide⟩
  | backslash => ⟨2, by decide⟩ | slash => ⟨3, by decide⟩
  | cross => ⟨4, by decide⟩ | solidBackslash => ⟨5, by decide⟩
  | solidSlash => ⟨6, by decide⟩ | solidCross => ⟨7, by decide⟩

theorem index_inj {s t : Symbol} (h : s.index = t.index) : s = t := by
  cases s <;> cases t <;> first | rfl | cases h

def name : Symbol → String
  | plain => "Plain" | solid => "Sol" | backslash => "Bksl" | slash => "Sl"
  | cross => "X" | solidBackslash => "SolBksl" | solidSlash => "SolSl" | solidCross => "SolX"

end Symbol
end FieldShow
