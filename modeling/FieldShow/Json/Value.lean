/-!
JSON values with members in order and repeats, and with integers told apart from other numbers.
-/

namespace FieldShow

/-- The text of a string, or nothing when the string holds half of a surrogate pair. -/
abbrev Text := Option String

/-- Numbers as a reader takes them in. Beyond the range of binary64 a number is infinite, and no
reader asks for that. -/
inductive Json.Number where
  | int (n : Int)
  | float (x : Float)
deriving Repr

inductive Json where
  | null
  | bool (b : Bool)
  | number (x : Json.Number)
  | string (t : Text)
  | array (items : List Json)
  | object (members : List (Text × Json))
deriving Inhabited

namespace Json

def Word (n : Int) : Prop := Int64.minValue.toInt ≤ n ∧ n < UInt64.size
deriving Decidable

def ofFloat (x : Float) : Json := if x.isFinite then number (.float x) else null

def ofInt (n : Int) : Json := number (.int n)

def ofNat (n : Nat) : Json := ofInt n

def text (s : String) : Json := string (some s)

def record (fields : List (String × Json)) : Json :=
  object (fields.map fun (key, value) => (some key, value))

/-- A variant that carries a value: an object with one member. -/
def tagged (tag : String) (value : Json) : Json := record [(tag, value)]

end Json
end FieldShow
