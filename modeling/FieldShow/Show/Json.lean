import FieldShow.Continuity.Json
import FieldShow.Json.Codec
import FieldShow.Show.Validity

/-! The JSON form of a show. -/

namespace FieldShow

open Json (record)

def Vec.toJson (v : Vec) : Json := record [("x", .ofInt v.x.toInt), ("y", .ofInt v.y.toInt)]

def Symbol.toJson (s : Symbol) : Json := .text s.name

def Placement.toJson (p : Placement) : Json :=
  record [("position", p.position.toJson),
    ("refs", .array (p.refs.toList.map fun r => (r.map Vec.toJson).getD .null)),
    ("symbol", p.symbol.toJson)]

def Book.toJson (b : Book) : Json := record (b.entries.map fun (s, p) => (s.name, p.toJson))

def Sheet.toJson (s : Sheet) : Json :=
  record [("name", .text s.name), ("beats", .ofNat s.beats.toNat),
    ("in_animation", .bool s.performed), ("points", .array (s.placements.map Placement.toJson)),
    ("continuities", s.book.toJson)]

def Show.toJson (s : Show) : Json := record [("sheets", .array (s.sheets.map Sheet.toJson))]

def Show.print (c : Json.Codec) (s : Show) : String := c.pretty s.toJson

def Vec.ofJson? (depth : Nat) (v : Json) : Option Vec := do
  match ← v.openRecord? ["x", "y"] depth with
  | (_, [some x, some y]) => return ⟨← x.int32?, ← y.int32?⟩
  | _ => none

def Symbol.ofTag? (s : String) : Option Symbol := all.find? (name · = s)

def Symbol.ofJson? (depth : Nat) (v : Json) : Option Symbol := v.tag? depth >>= ofTag?

def Placement.refsOfJson? : Nat → Json → Option (Vector (Option Vec) 3)
  | depth + 1, .array [a, b, c] => do
    let read := fun v => Json.optional? (Vec.ofJson? depth) (some v)
    return #v[← read a, ← read b, ← read c]
  | _, _ => none

def Placement.ofJson? (depth : Nat) (v : Json) : Option Placement := do
  match ← v.openRecord? ["position", "refs", "symbol"] depth with
  | (depth, [some position, refs, symbol]) =>
    return ⟨← Vec.ofJson? depth position,
      ← Json.withDefault? (refsOfJson? depth) (.replicate 3 none) refs,
      ← Json.withDefault? (Symbol.ofJson? depth) .plain symbol⟩
  | _ => none

/-- A symbol may come more than once: the last of its programs counts, and all must be sound. -/
def Book.ofMembers? (depth : Nat) : Book → List (Text × Json) → Option Book
  | book, [] => some book
  | book, (key, v) :: rest => do
    ofMembers? depth (book.insert (← key >>= Symbol.ofTag?) (← Program.ofJson? depth v)) rest

def Book.ofJson? : Nat → Json → Option Book
  | depth + 1, .object members => ofMembers? depth empty members
  | _, _ => none

def Sheet.ofJson? (depth : Nat) (v : Json) : Option Sheet := do
  match ← v.openRecord? ["name", "beats", "in_animation", "points", "continuities"] depth with
  | (depth, [some name, some beats, performed, some placements, book]) =>
    return ⟨← name.text?, ← beats.uint32?, ← Json.withDefault? Json.bool? true performed,
      ← Json.list? Placement.ofJson? depth placements,
      ← Json.withDefault? (Book.ofJson? depth) .empty book⟩
  | _ => none

def Show.ofJson? (depth : Nat) (v : Json) : Option Show := do
  match ← v.openRecord? ["sheets"] depth with
  | (depth, [some sheets]) => return ⟨← Json.list? Sheet.ofJson? depth sheets⟩
  | _ => none

def Show.read? (c : Json.Codec) (s : String) : Option Show :=
  c.parse? s >>= ofJson? Json.maxDepth

def Show.parse (c : Json.Codec) (s : String) : Except Fault Show :=
  match read? c s with
  | some s => s.validate
  | none => .error .unreadable

end FieldShow
