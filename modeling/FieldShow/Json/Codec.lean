import FieldShow.Json.Fields

/-!
The text layer under a JSON document: one function writes values and one reads them. A program is
given both; what it may rely on is told by `Codec.Faithful`.
-/

namespace FieldShow.Json

mutual

/-- How many arrays and objects of a value lie inside each other. -/
def depth : Json → Nat
  | .array items => itemsDepth items + 1
  | .object members => membersDepth members + 1
  | _ => 0

def itemsDepth : List Json → Nat
  | [] => 0
  | v :: rest => max (depth v) (itemsDepth rest)

def membersDepth : List (Text × Json) → Nat
  | [] => 0
  | (_, v) :: rest => max (depth v) (membersDepth rest)

end

structure Codec where
  pretty : Json → String
  parse? : String → Option Json

namespace Codec

def Keeps (c : Codec) (v : Json) : Prop := c.parse? (c.pretty v) = some v

/-- Every string and every number in a value is kept where it stands alone. -/
inductive Spelled (c : Codec) : Json → Prop where
  | null : Spelled c null
  | bool (b : Bool) : Spelled c (bool b)
  | number {x : Number} (h : c.Keeps (number x)) : Spelled c (number x)
  | string {t : Text} (h : c.Keeps (string t)) : Spelled c (string t)
  | array {items : List Json} (h : ∀ v ∈ items, Spelled c v) : Spelled c (array items)
  | object {members : List (Text × Json)} (hkeys : ∀ m ∈ members, c.Keeps (string m.1))
      (h : ∀ m ∈ members, Spelled c m.2) : Spelled c (object members)

/-- Strings, integers of 64 bits and the finite numbers among `xs` are kept, and so is a document
that a reader can go down into when its strings and numbers are. The numbers are named because a
layer may round twice when it reads and then misses the last bit of some. -/
structure Faithful (c : Codec) (xs : List Float) : Prop where
  string (s : String) : c.Keeps (text s)
  int {n : Int} (h : Word n) : c.Keeps (ofInt n)
  float {x : Float} (hmem : x ∈ xs) (hfinite : x.isFinite) : c.Keeps (ofFloat x)
  document {v : Json} (h : c.Spelled v) (hdepth : v.depth ≤ maxDepth) : c.Keeps v

end Codec

end FieldShow.Json
