import FieldShow.Json.Token

/-!
JSON values from tokens. The reader keeps the arrays and objects that are open and what may
come next, so that a value of any depth takes one pass over its tokens.
-/

namespace FieldShow.Json

/-- An open array or object: what it holds so far, last first, and the key that awaits a value. -/
inductive Frame where
  | items (done : List Json)
  | members (done : List (Text × Json)) (key : Text)

/-- What may come next: a value, a value or the end of an array just opened, a key (or the end
of an object just opened), the colon after a key, or what follows a complete value. -/
inductive Phase where
  | value
  | first
  | key (done : List (Text × Json)) (closable : Bool)
  | colon (done : List (Text × Json)) (key : Text)
  | complete (v : Json)

structure Reader where
  frames : List Frame
  phase : Phase

namespace Reader

def start : Reader := ⟨[], .value⟩

def beginValue (frames : List Frame) : Token → Option Reader
  | .leftBracket => some ⟨.items [] :: frames, .first⟩
  | .leftBrace => some ⟨frames, .key [] true⟩
  | .null => some ⟨frames, .complete .null⟩
  | .bool b => some ⟨frames, .complete (.bool b)⟩
  | .number n => some ⟨frames, .complete (.number n.value)⟩
  | .string t => some ⟨frames, .complete (.string t)⟩
  | _ => none

def afterValue (v : Json) : List Frame → Token → Option Reader
  | .items done :: frames, .comma => some ⟨.items (v :: done) :: frames, .value⟩
  | .items done :: frames, .rightBracket => some ⟨frames, .complete (.array (v :: done).reverse)⟩
  | .members done key :: frames, .comma => some ⟨frames, .key ((key, v) :: done) false⟩
  | .members done key :: frames, .rightBrace =>
    some ⟨frames, .complete (.object ((key, v) :: done).reverse)⟩
  | _, _ => none

def step (r : Reader) (t : Token) : Option Reader :=
  match r.phase, t with
  | .first, .rightBracket => some ⟨r.frames.drop 1, .complete (.array [])⟩
  | .first, t => beginValue r.frames t
  | .value, t => beginValue r.frames t
  | .key _ true, .rightBrace => some ⟨r.frames, .complete (.object [])⟩
  | .key done _, .string key => some ⟨r.frames, .colon done key⟩
  | .key .., _ => none
  | .colon done key, .colon => some ⟨.members done key :: r.frames, .value⟩
  | .colon .., _ => none
  | .complete v, t => afterValue v r.frames t

def result? : Reader → Option Json
  | ⟨[], .complete v⟩ => some v
  | _ => none

end Reader

def ofTokens? (tokens : List Token) : Option Json :=
  tokens.foldlM Reader.step Reader.start >>= Reader.result?

def parse? (s : String) : Option Json := tokens? s.toList >>= ofTokens?

end FieldShow.Json
