import FieldShow.Json.Value

/-!
Taking JSON values apart. Where a reader counts its `depth`, that is how many arrays and objects
may still open; values that nobody asks for are not counted.
-/

namespace FieldShow.Json

def maxDepth : Nat := 127

/-- The fields of a record, by name or in order. A name may come once; further names are passed
over. In order, the last fields may be missing but none may be too many. -/
def fields? (names : List String) : Json → Option (List (Option Json))
  | object members =>
    if members.all fun (key, _) => key.isSome then
      names.mapM fun name =>
        match members.filter fun (key, _) => key = some name with
        | [] => some none
        | [(_, value)] => some (some value)
        | _ => none
    else none
  | array items =>
    if items.length ≤ names.length then
      some (items.map some ++ List.replicate (names.length - items.length) none)
    else none
  | _ => none

def openRecord? (names : List String) : Nat → Json → Option (Nat × List (Option Json))
  | depth + 1, v => (fields? names v).map (depth, ·)
  | 0, _ => none

def list? {α : Type} (read : Nat → Json → Option α) : Nat → Json → Option (List α)
  | depth + 1, array items => items.mapM (read depth)
  | _, _ => none

/-- A variant: its tag, what it carries, and the depth that is left for that. -/
def variant? : Nat → Json → Option (Nat × String × Option Json)
  | depth, string (some tag) => some (depth, tag, none)
  | depth + 1, object [(some tag, value)] => some (depth, tag, some value)
  | _, _ => none

def tag? (depth : Nat) (v : Json) : Option String :=
  match variant? depth v with
  | some (_, tag, none) => some tag
  | some (_, tag, some null) => some tag
  | _ => none

def optional? {α : Type} (read : Json → Option α) : Option Json → Option (Option α)
  | none => some none
  | some null => some none
  | some v => (read v).map some

def withDefault? {α : Type} (read : Json → Option α) (default : α) : Option Json → Option α
  | none => some default
  | some v => read v

def bool? : Json → Option Bool
  | bool b => some b
  | _ => none

def text? : Json → Option String
  | string t => t
  | _ => none

def float? : Json → Option Float
  | number (.float x) => if x.isFinite then some x else none
  | number (.int n) => some (.ofInt n)
  | _ => none

def int? : Json → Option Int
  | number (.int n) => some n
  | _ => none

def natBelow? (bound : Nat) (v : Json) : Option Nat := do
  let n ← int? v
  if 0 ≤ n ∧ n < bound then some n.toNat else none

def uint32? (v : Json) : Option UInt32 := (natBelow? UInt32.size v).map UInt32.ofNat

def int32? (v : Json) : Option Int32 := do
  let n ← int? v
  if Int32.minValue.toInt ≤ n ∧ n ≤ Int32.maxValue.toInt then some (.ofInt n) else none

end FieldShow.Json
