/-!
The command line: a command and its options. Options may come in any order, each at most once,
with their value in the next argument or after an equals sign.
-/

namespace FieldShow.Console

inductive Command where
  | check
  | positions (beat : Nat) (point : Option Nat)
  | collisions
deriving DecidableEq, Repr

structure Invocation where
  command : Command
  /-- The file that holds the show. -/
  path : String
  parallel : Bool
  threads : Option Nat
deriving DecidableEq, Repr

inductive Request where
  | run (i : Invocation)
  | version
  | usage
  /-- The arguments make no sense. -/
  | invalid
deriving DecidableEq, Repr

structure Given where
  path : Option String := none
  parallel : Bool := false
  threads : Option Nat := none
  beat : Option Nat := none
  point : Option Nat := none
deriving DecidableEq, Repr

/-- The decimal number that a text holds, perhaps after a plus sign. -/
def digits? (cs : List Char) : Option Nat :=
  if cs ≠ [] ∧ cs.all Char.isDigit then some (Nat.ofDigitChars 10 cs 0) else none

def number? (bound : Nat) (s : String) : Option Nat := do
  let n ← match s.toList with
    | '+' :: cs => digits? cs
    | cs => digits? cs
  if n < bound then some n else none

/-- A beat may also be written with a minus sign if it is zero. -/
def beat? (s : String) : Option Nat :=
  match s.toList with
  | '-' :: cs => (digits? cs).filter (· = 0)
  | _ => number? UInt32.size s

def isOption (s : String) : Bool :=
  match s.toList with
  | '-' :: _ :: _ => true
  | _ => false

/-- An argument of one dash whose first letter is a flag that ends the reading of arguments. -/
def isFlag (flag : Char) (s : String) : Bool :=
  match s.toList with
  | '-' :: c :: _ => c = flag
  | _ => false

def splitOption (s : String) : String × Option String :=
  let cs := s.toList
  let name := cs.takeWhile (· ≠ '=')
  (.ofList name, match cs.dropWhile (· ≠ '=') with
    | [] => none
    | _ :: value => some (.ofList value))

def Given.set? (g : Given) (command name value : String) : Option Given :=
  match name with
  | "--in" => if g.path.isSome ∨ value = "" then none else some { g with path := some value }
  | "--threads" =>
    if g.threads.isSome then none
    else (number? UInt64.size value).map fun n => { g with threads := some n }
  | "--beat" =>
    if command ≠ "positions" ∨ g.beat.isSome then none
    else (beat? value).map fun n => { g with beat := some n }
  | "--point" =>
    if command ≠ "positions" ∨ g.point.isSome then none
    else (number? UInt64.size value).map fun n => { g with point := some n }
  | _ => none

def Given.invocation? (g : Given) (command : String) : Option Invocation := do
  let path ← g.path
  let command ← match command with
    | "check" => some .check
    | "collisions" => some .collisions
    | _ => g.beat.map fun beat => .positions beat g.point
  return ⟨command, path, g.parallel, g.threads⟩

def readOptions (command : String) (g : Given) : List String → Request
  | [] | ["--"] => ((g.invocation? command).map .run).getD .invalid
  | arg :: rest =>
    if arg = "--help" ∨ isFlag 'h' arg then .usage
    else if arg = "--parallel" then
      if g.parallel then .invalid else readOptions command { g with parallel := true } rest
    else
      match splitOption arg, rest with
      | (name, some value), rest =>
        match g.set? command name value with
        | some g => readOptions command g rest
        | none => .invalid
      | (name, none), value :: rest =>
        if isOption value then .invalid
        else
          match g.set? command name value with
          | some g => readOptions command g rest
          | none => .invalid
      | (_, none), [] => .invalid

def commands : List String := ["check", "positions", "collisions"]

def Request.ofArguments : List String → Request
  | [] => .invalid
  | "help" :: topics =>
    if topics = [] ∨ topics ∈ ("help" :: commands).map ([·]) then .usage else .invalid
  | arg :: rest =>
    if arg = "--version" ∨ isFlag 'V' arg then .version
    else if arg = "--help" ∨ isFlag 'h' arg then .usage
    else if arg ∈ commands then readOptions arg {} rest
    else .invalid

end FieldShow.Console
