import FieldShow.Json.Codec
import FieldShow.Json.Reader

/-! JSON text, on one line or with one item a line. -/

namespace FieldShow.Json

/-- What stands between the parts of a value: the break before an item at a depth, and the mark
between a key and its value. -/
structure Layout where
  newline : Nat → List Char
  colon : List Char

namespace Layout

def compact : Layout := ⟨fun _ => [], [':']⟩

def indented : Layout := ⟨fun depth => '\n' :: List.replicate (2 * depth) ' ', [':', ' ']⟩

end Layout

def hexDigit (n : Nat) : Char := (Nat.toDigits 16 n).getLastD '0'

def escape (c : Char) : List Char :=
  match c with
  | '"' => ['\\', '"']
  | '\\' => ['\\', '\\']
  | '\x08' => ['\\', 'b']
  | '\t' => ['\\', 't']
  | '\n' => ['\\', 'n']
  | '\x0c' => ['\\', 'f']
  | '\r' => ['\\', 'r']
  | c =>
    if c < ' ' then ['\\', 'u', '0', '0', hexDigit (c.toNat / 16), hexDigit (c.toNat % 16)]
    else [c]

/-- A string in quotes. One without a text is written as half a surrogate pair. -/
def quote : Text → List Char
  | some s => '"' :: s.toList.flatMap escape ++ ['"']
  | none => "\"\\ud800\"".toList

mutual

def chars (l : Layout) (depth : Nat) : Json → List Char
  | .null => "null".toList
  | .bool b => (if b then "true" else "false").toList
  | .number x => x.numeral.chars
  | .string t => quote t
  | .array [] => ['[', ']']
  | .array (v :: rest) =>
    '[' :: l.newline (depth + 1) ++ chars l (depth + 1) v ++ itemChars l depth rest ++
      l.newline depth ++ [']']
  | .object [] => ['\x7b', '\x7d']
  | .object ((key, v) :: rest) =>
    '\x7b' :: l.newline (depth + 1) ++ quote key ++ l.colon ++ chars l (depth + 1) v ++
      memberChars l depth rest ++ l.newline depth ++ ['\x7d']

def itemChars (l : Layout) (depth : Nat) : List Json → List Char
  | [] => []
  | v :: rest =>
    ',' :: l.newline (depth + 1) ++ chars l (depth + 1) v ++ itemChars l depth rest

def memberChars (l : Layout) (depth : Nat) : List (Text × Json) → List Char
  | [] => []
  | (key, v) :: rest =>
    ',' :: l.newline (depth + 1) ++ quote key ++ l.colon ++ chars l (depth + 1) v ++
      memberChars l depth rest

end

def compact (v : Json) : String := .ofList (v.chars .compact 0)

def pretty (v : Json) : String := .ofList (v.chars .indented 0)

/-- A text layer to run with, which takes every numeral for the number next to it. -/
def Codec.standard : Codec := ⟨Json.pretty, Json.parse?⟩

end FieldShow.Json
