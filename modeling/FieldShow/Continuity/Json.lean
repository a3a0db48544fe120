import FieldShow.Continuity.Text
import FieldShow.Json.Fields

/-!
The JSON form of a continuity. What carries nothing is a string; everything else is an object
whose one key tells what it is.
-/

namespace FieldShow

open Json (record tagged)

/-! ## Writing -/

def Slot.tag : Slot → String
  | dof => "Dof"
  | doh => "Doh"
  | s => s.keyword

def Slot.toJson (s : Slot) : Json := .text s.tag

def Constant.toJson (c : Constant) : Json := .text c.keyword

def Target.toJson : Target → Json
  | here => .text "current"
  | start => .text "start"
  | next => .text "next"
  | ref n => tagged "ref" (.ofNat n.toNat)

def Expr.toJson : Expr → Json
  | number x => tagged "float" (.ofFloat x)
  | constant c => tagged "defined" c.toJson
  | remaining => .text "rem"
  | slot s => tagged "var" s.toJson
  | neg a => tagged "neg" a.toJson
  | add a b => tagged "add" (.array [a.toJson, b.toJson])
  | sub a b => tagged "sub" (.array [a.toJson, b.toJson])
  | mul a b => tagged "mul" (.array [a.toJson, b.toJson])
  | div a b => tagged "div" (.array [a.toJson, b.toJson])
  | direction p => tagged "dir" p.toJson
  | directionBetween p q => tagged "dir_from" (.array [p.toJson, q.toJson])
  | distance p => tagged "dist" p.toJson
  | distanceBetween p q => tagged "dist_from" (.array [p.toJson, q.toJson])
  | nearer a b p =>
    tagged "either" (record [("dir1", a.toJson), ("dir2", b.toJson), ("point", p.toJson)])
  | opposite a => tagged "opp" a.toJson
  | stepDrill a b p =>
    tagged "step" (record [("beats", a.toJson), ("block", b.toJson), ("point", p.toJson)])

def optionalField (name : String) : Option Expr → List (String × Json)
  | none => []
  | some e => [(name, e.toJson)]

def Action.toJson : Action → Json
  | assign s v => tagged "set" (record [("var", s.toJson), ("value", v.toJson)])
  | blam => .text "blam"
  | countermarch p q steps first second beats =>
    tagged "counter_march" (record [("start", p.toJson), ("through", q.toJson),
      ("steps", steps.toJson), ("dir1", first.toJson), ("dir2", second.toJson),
      ("beats", beats.toJson)])
  | diagonalCountermarch p q beats =>
    tagged "dm_counter_march"
      (record [("start", p.toJson), ("through", q.toJson), ("beats", beats.toJson)])
  | straightCountermarch p q beats =>
    tagged "hs_counter_march"
      (record [("start", p.toJson), ("through", q.toJson), ("beats", beats.toJson)])
  | diagonalFirst p => tagged "dm_hs" (record [("point", p.toJson)])
  | straightFirst p => tagged "hs_dm" (record [("point", p.toJson)])
  | eastWestFirst p => tagged "ew_ns" (record [("point", p.toJson)])
  | northSouthFirst p => tagged "ns_ew" (record [("point", p.toJson)])
  | evenly beats p => tagged "even" (record [("steps", beats.toJson), ("point", p.toJson)])
  | fountain first second size₁ size₂ p =>
    tagged "fountain" (record ([("dir1", first.toJson), ("dir2", second.toJson)] ++
      optionalField "step1" size₁ ++ optionalField "step2" size₂ ++ [("point", p.toJson)]))
  | forward steps dir =>
    tagged "forward_march" (record [("steps", steps.toJson), ("dir", dir.toJson)])
  | forwardTo p => tagged "fm_to" (record [("point", p.toJson)])
  | toGrid size => tagged "grid" (record [("size", size.toJson)])
  | jump p => tagged "magic" (record [("point", p.toJson)])
  | march size steps dir facing =>
    tagged "march" (record ([("step_size", size.toJson), ("steps", steps.toJson),
      ("dir", dir.toJson)] ++ optionalField "facing" facing))
  | stand beats dir => tagged "mark_time" (record [("beats", beats.toJson), ("dir", dir.toJson)])
  | standOut dir => tagged "mark_time_remaining" (record [("dir", dir.toJson)])
  | wheel angle steps p backwards =>
    tagged "rotate" (record [("angle", angle.toJson), ("steps", steps.toJson),
      ("center", p.toJson), ("backwards", .bool backwards)])

def Loc.toJson (l : Loc) : Json :=
  record [("line", .ofNat l.line.toNat), ("col", .ofNat l.col.toNat)]

def Statement.toJson (s : Statement) : Json :=
  record (("kind", s.action.toJson) :: (s.loc.map fun l => ("loc", l.toJson)).toList)

def Program.toJson (p : Program) : Json := .array (p.map Statement.toJson)

/-! ## Reading -/

def Slot.ofTag? (s : String) : Option Slot := Slot.all.find? (Slot.tag · = s)

def Constant.ofTag? (s : String) : Option Constant := Constant.all.find? (Constant.keyword · = s)

def Slot.ofJson? (depth : Nat) (v : Json) : Option Slot := v.tag? depth >>= ofTag?

def Constant.ofJson? (depth : Nat) (v : Json) : Option Constant := v.tag? depth >>= ofTag?

def Target.ofJson? (depth : Nat) (v : Json) : Option Target := do
  match ← v.variant? depth with
  | (_, "current", none) | (_, "current", some .null) => return here
  | (_, "start", none) | (_, "start", some .null) => return start
  | (_, "next", none) | (_, "next", some .null) => return next
  | (_, "ref", some n) => return ref (.ofNat (← n.natBelow? UInt8.size))
  | _ => none

def Expr.ofJson? : Nat → Json → Option Expr
  | _, .string (some "rem") => some remaining
  | depth + 1, .object [(some tag, body)] =>
    match tag with
    | "rem" => match body with
      | .null => some remaining
      | _ => none
    | "float" => body.float?.map number
    | "defined" => (Constant.ofJson? depth body).map constant
    | "var" => (Slot.ofJson? depth body).map slot
    | "neg" => (ofJson? depth body).map neg
    | "opp" => (ofJson? depth body).map opposite
    | "dir" => (Target.ofJson? depth body).map direction
    | "dist" => (Target.ofJson? depth body).map distance
    | "add" => match depth, body with
      | inner + 1, .array [a, b] => return add (← ofJson? inner a) (← ofJson? inner b)
      | _, _ => none
    | "sub" => match depth, body with
      | inner + 1, .array [a, b] => return sub (← ofJson? inner a) (← ofJson? inner b)
      | _, _ => none
    | "mul" => match depth, body with
      | inner + 1, .array [a, b] => return mul (← ofJson? inner a) (← ofJson? inner b)
      | _, _ => none
    | "div" => match depth, body with
      | inner + 1, .array [a, b] => return div (← ofJson? inner a) (← ofJson? inner b)
      | _, _ => none
    | "dir_from" => match depth, body with
      | inner + 1, .array [p, q] =>
        return directionBetween (← Target.ofJson? inner p) (← Target.ofJson? inner q)
      | _, _ => none
    | "dist_from" => match depth, body with
      | inner + 1, .array [p, q] =>
        return distanceBetween (← Target.ofJson? inner p) (← Target.ofJson? inner q)
      | _, _ => none
    | "either" => match depth, body.fields? ["dir1", "dir2", "point"] with
      | inner + 1, some [some a, some b, some p] =>
        return nearer (← ofJson? inner a) (← ofJson? inner b) (← Target.ofJson? inner p)
      | _, _ => none
    | "step" => match depth, body.fields? ["beats", "block", "point"] with
      | inner + 1, some [some a, some b, some p] =>
        return stepDrill (← ofJson? inner a) (← ofJson? inner b) (← Target.ofJson? inner p)
      | _, _ => none
    | _ => none
  | _, _ => none

namespace Action

def fieldNames? : String → Option (List String)
  | "set" => some ["var", "value"]
  | "counter_march" => some ["start", "through", "steps", "dir1", "dir2", "beats"]
  | "dm_counter_march" | "hs_counter_march" => some ["start", "through", "beats"]
  | "dm_hs" | "hs_dm" | "ew_ns" | "ns_ew" | "fm_to" | "magic" => some ["point"]
  | "even" => some ["steps", "point"]
  | "fountain" => some ["dir1", "dir2", "step1", "step2", "point"]
  | "forward_march" => some ["steps", "dir"]
  | "grid" => some ["size"]
  | "march" => some ["step_size", "steps", "dir", "facing"]
  | "mark_time" => some ["beats", "dir"]
  | "mark_time_remaining" => some ["dir"]
  | "rotate" => some ["angle", "steps", "center", "backwards"]
  | _ => none

def ofFields? (expr : Json → Option Expr) (place : Json → Option Target)
    (slot : Json → Option Slot) : String → List (Option Json) → Option Action
  | "set", [some s, some v] => return assign (← slot s) (← expr v)
  | "counter_march", [some p, some q, some steps, some a, some b, some beats] =>
    return countermarch (← place p) (← place q) (← expr steps) (← expr a) (← expr b)
      (← expr beats)
  | "dm_counter_march", [some p, some q, some beats] =>
    return diagonalCountermarch (← place p) (← place q) (← expr beats)
  | "hs_counter_march", [some p, some q, some beats] =>
    return straightCountermarch (← place p) (← place q) (← expr beats)
  | "dm_hs", [some p] => return diagonalFirst (← place p)
  | "hs_dm", [some p] => return straightFirst (← place p)
  | "ew_ns", [some p] => return eastWestFirst (← place p)
  | "ns_ew", [some p] => return northSouthFirst (← place p)
  | "even", [some beats, some p] => return evenly (← expr beats) (← place p)
  | "fountain", [some a, some b, size₁, size₂, some p] =>
    return fountain (← expr a) (← expr b) (← Json.optional? expr size₁)
      (← Json.optional? expr size₂) (← place p)
  | "forward_march", [some steps, some dir] => return forward (← expr steps) (← expr dir)
  | "fm_to", [some p] => return forwardTo (← place p)
  | "grid", [some size] => return toGrid (← expr size)
  | "magic", [some p] => return jump (← place p)
  | "march", [some size, some steps, some dir, facing] =>
    return march (← expr size) (← expr steps) (← expr dir) (← Json.optional? expr facing)
  | "mark_time", [some beats, some dir] => return stand (← expr beats) (← expr dir)
  | "mark_time_remaining", [some dir] => return standOut (← expr dir)
  | "rotate", [some angle, some steps, some p, backwards] =>
    return wheel (← expr angle) (← expr steps) (← place p)
      (← Json.withDefault? Json.bool? false backwards)
  | _, _ => none

def ofJson? (depth : Nat) (v : Json) : Option Action := do
  match ← v.variant? depth with
  | (_, "blam", none) | (_, "blam", some .null) => return blam
  | (depth, tag, some body) =>
    let (depth, fields) ← body.openRecord? (← fieldNames? tag) depth
    ofFields? (Expr.ofJson? depth) (Target.ofJson? depth) (Slot.ofJson? depth) tag fields
  | _ => none

end Action

def Loc.ofJson? (depth : Nat) (v : Json) : Option Loc := do
  match ← v.openRecord? ["line", "col"] depth with
  | (_, [some line, some col]) => return ⟨← line.uint32?, ← col.uint32?⟩
  | _ => none

def Statement.ofJson? (depth : Nat) (v : Json) : Option Statement := do
  match ← v.openRecord? ["kind", "loc"] depth with
  | (depth, [some action, loc]) =>
    return ⟨← Action.ofJson? depth action, ← Json.optional? (Loc.ofJson? depth) loc⟩
  | _ => none

def Program.ofJson? (depth : Nat) (v : Json) : Option Program :=
  Json.list? Statement.ofJson? depth v

end FieldShow
