/-!
What can be wrong with a request, by cause. Slips in a continuity are no faults: they are noted
beside the show that comes of it.
-/

namespace FieldShow

namespace Fault

inductive Kind where
  | validation | compile | playback | serialization | other
deriving DecidableEq, Repr

def Kind.label : Kind → String
  | validation => "validation error: "
  | compile => "compile error: "
  | playback => "playback error: "
  | serialization => "serialization error: "
  | other => ""

def Kind.message (kind : Kind) (text : String) : String := kind.label ++ text

end Fault

inductive Fault where
  | unreadable
  | sheetOutOfRange (index count : Nat)
  | pointOutOfRange (index : Nat) (sheet : String) (count : Nat)
  | unevenSheet (index : Nat) (sheet : String) (count expected : Nat)
  | misplacedPoint (index : Nat) (sheet : String) (point : Nat) (x y : Int) (limit : Nat)
  | blankName
  | repeatedSymbol (symbol : String)
  | referenceOutOfRange (number count : Nat)
  | referenceToMissingPoint (point count : Nat)
  | negativeThreshold
  | noThreads
  | tooManyBeats
  | emptyTimeline
  | beatOutOfRange (beat total : Nat)
  | sceneOutOfRange (index count : Nat)
  | marcherOutOfRange (index count : Nat)
deriving DecidableEq, Repr

namespace Fault

def kind : Fault → Kind
  | unreadable => .serialization
  | emptyTimeline | beatOutOfRange .. | sceneOutOfRange .. | marcherOutOfRange .. => .playback
  | _ => .validation

def text : Fault → String
  | unreadable => "not a show"
  | sheetOutOfRange index count => s!"sheet index {index} out of range (show has {count} sheets)"
  | pointOutOfRange index sheet count =>
    s!"point index {index} out of range (sheet '{sheet}' has {count} points)"
  | unevenSheet index sheet count expected =>
    s!"sheet {index} ('{sheet}') has {count} points, expected {expected}"
  | misplacedPoint index sheet point x y limit =>
    s!"sheet {index} ('{sheet}') point {point} at ({x}, {y}) is outside +/-{limit} units"
  | blankName => "sheet name must be non-empty"
  | repeatedSymbol symbol => s!"duplicate continuity for symbol {symbol}"
  | referenceOutOfRange number count => s!"reference point {number} out of range 1..={count}"
  | referenceToMissingPoint point count =>
    s!"reference for point {point}, but sheet has {count} points"
  | negativeThreshold => "collision threshold must be >= 0"
  | noThreads => "build option 'threads' must be >= 1 when set"
  | tooManyBeats => "show beat count overflows u32"
  | emptyTimeline => "animation has no sheets"
  | beatOutOfRange beat total => s!"beat {beat} out of range (animation has {total} beats)"
  | sceneOutOfRange index count =>
    s!"animated sheet {index} out of range (animation has {count} sheets)"
  | marcherOutOfRange index count =>
    s!"point {index} out of range (animation has {count} points)"

def message (f : Fault) : String := f.kind.message f.text

end Fault
end FieldShow
