import FieldShow.Console.Arguments
import FieldShow.Show.Json
import FieldShow.Timeline.Playhead

/-! What the command line answers: the mistakes, the places or the clashes of a show. -/

namespace FieldShow.Console

/-- What the program leaves behind: its exit code and the text on both outputs. -/
structure Report where
  exit : Nat
  out : String
  err : String
deriving DecidableEq, Repr

inductive Source where
  | missing
  | unreadable
  | text (s : String)

def versionLine : String := "drillanim 0.1.0"

def usageText : String :=
  "Usage: drillanim check --in <FILE> [--parallel] [--threads <N>]\n" ++
  "       drillanim positions --in <FILE> --beat <N> [--point <N>] [--parallel] [--threads <N>]\n" ++
  "       drillanim collisions --in <FILE> [--parallel] [--threads <N>]\n"

namespace Report

def failure (out message : String) : Report := ⟨1, out, "Error: " ++ message ++ "\n"⟩

def lines (ls : List String) : String := String.join (ls.map (· ++ "\n"))

def mistakeLine (index : Nat) (name : String) (k : Mistake) (m : Marker) : String :=
  let points := ", ".intercalate (m.points.toList.map toString)
  let place := match m.loc with
    | some l => s!" at {l.line}:{l.col}"
    | none => ""
  s!"sheet {index} '{name}': {k.text} (points {points}; symbol {m.symbol.name})" ++ place

def check (t : Timeline) : Report :=
  let mistakes := t.scenes.flatMap fun s =>
    s.markers.entries.map fun (k, m) => mistakeLine s.index s.name k m
  if mistakes = [] then
    ⟨0, "", s!"ok: {t.scenes.length} sheets, {t.total} beats, {t.size} points\n"⟩
  else failure (lines mistakes) s!"{mistakes.length} continuity error(s)"

def row (point : Nat) (v : Vec) : Json :=
  .record [("point", .ofNat point), ("x", .ofInt v.x.toInt), ("y", .ofInt v.y.toInt)]

def positions (c : Json.Codec) (t : Timeline) (beat : Nat) (point : Option Nat) : Report :=
  let points := match point with
    | some p => [p]
    | none => List.range t.size
  match points.mapM fun p => (row p ·) <$> t.position p beat with
  | .ok rows => ⟨0, c.pretty (.array rows) ++ "\n", ""⟩
  | .error f => failure "" f.message

def closenessName : Closeness → String
  | .warning => "Warning"
  | .intersect => "Intersect"

def clashLine (beat : Nat) (cs : Clashes) : String :=
  s!"beat {beat}: " ++
    ", ".intercalate (cs.map fun (p, c) => s!"{p.first}-{p.second} {closenessName c}")

def collisions (t : Timeline) : Report :=
  ⟨0, lines (t.allClashes.map fun (beat, cs) => clashLine beat cs), ""⟩

end Report

def Invocation.report (c : Json.Codec) (i : Invocation) : Source → Report
  | .missing => .failure "" s!"open show '{i.path}'"
  | .unreadable => .failure "" "parse show JSON"
  | .text s =>
    match Show.read? c s with
    | none => .failure "" "parse show JSON"
    | some s =>
      match Timeline.build s { parallel := i.parallel, threads := i.threads } with
      | .error f => .failure "" f.message
      | .ok t =>
        match i.command with
        | .check => .check t
        | .positions beat point => .positions c t beat point
        | .collisions => .collisions t

def Request.report (c : Json.Codec) (source : String → Source) : Request → Report
  | .run i => i.report c (source i.path)
  | .version => ⟨0, versionLine ++ "\n", ""⟩
  | .usage => ⟨0, usageText, ""⟩
  | .invalid => ⟨2, "", usageText⟩

end FieldShow.Console
