import FieldShow.Continuity.Basic
import FieldShow.Numeric.Decimal

/-! The written form of a continuity. -/

namespace FieldShow

def Slot.keyword : Slot → String
  | a => "A" | b => "B" | c => "C" | d => "D" | x => "X" | y => "Y" | z => "Z"
  | dof => "DOF" | doh => "DOH"

def Constant.keyword : Constant → String
  | north => "N" | northwest => "NW" | west => "W" | southwest => "SW"
  | south => "S" | southeast => "SE" | east => "E" | northeast => "NE"
  | highStep => "HS" | miniMilitary => "MM" | showHigh => "SH" | jerkyStep => "JS"
  | grapevine => "GV" | military => "M" | diagonalMilitary => "DM"

def Target.text : Target → String
  | here => "P"
  | start => "SP"
  | next => "NP"
  | ref n => "R" ++ toString n.toNat

def Expr.text : Expr → String
  | number x => Numeric.plainText x
  | constant c => c.keyword
  | remaining => "REM"
  | slot s => s.keyword
  | neg a => "-" ++ a.text
  | add a b => "(" ++ a.text ++ " + " ++ b.text ++ ")"
  | sub a b => "(" ++ a.text ++ " - " ++ b.text ++ ")"
  | mul a b => "(" ++ a.text ++ " * " ++ b.text ++ ")"
  | div a b => "(" ++ a.text ++ " / " ++ b.text ++ ")"
  | direction p => "DIR(" ++ p.text ++ ")"
  | directionBetween p q => "DIRFROM(" ++ p.text ++ " " ++ q.text ++ ")"
  | distance p => "DIST(" ++ p.text ++ ")"
  | distanceBetween p q => "DISTFROM(" ++ p.text ++ " " ++ q.text ++ ")"
  | nearer a b p => "EITHER(" ++ a.text ++ " " ++ b.text ++ " " ++ p.text ++ ")"
  | opposite a => "OPP(" ++ a.text ++ ")"
  | stepDrill a b p => "STEP(" ++ a.text ++ " " ++ b.text ++ " " ++ p.text ++ ")"

/-- The step sizes of a fountain are written when both are given. -/
def Action.text : Action → String
  | assign s v => s.keyword ++ " = " ++ v.text
  | blam => "BLAM"
  | countermarch p q steps first second beats =>
    "CM " ++ p.text ++ " " ++ q.text ++ " " ++ steps.text ++ " " ++ first.text ++ " " ++
      second.text ++ " " ++ beats.text
  | diagonalCountermarch p q beats => "DMCM " ++ p.text ++ " " ++ q.text ++ " " ++ beats.text
  | straightCountermarch p q beats => "HSCM " ++ p.text ++ " " ++ q.text ++ " " ++ beats.text
  | diagonalFirst p => "DMHS " ++ p.text
  | straightFirst p => "HSDM " ++ p.text
  | eastWestFirst p => "EWNS " ++ p.text
  | northSouthFirst p => "NSEW " ++ p.text
  | evenly beats p => "EVEN " ++ beats.text ++ " " ++ p.text
  | fountain first second (some size₁) (some size₂) p =>
    "FOUNTAIN " ++ first.text ++ " " ++ second.text ++ " " ++ size₁.text ++ " " ++ size₂.text ++
      " " ++ p.text
  | fountain first second _ _ p => "FOUNTAIN " ++ first.text ++ " " ++ second.text ++ " " ++ p.text
  | forward steps dir => "FM " ++ steps.text ++ " " ++ dir.text
  | forwardTo p => "FMTO " ++ p.text
  | toGrid size => "GRID " ++ size.text
  | jump p => "MAGIC " ++ p.text
  | march size steps dir facing =>
    "MARCH " ++ size.text ++ " " ++ steps.text ++ " " ++ dir.text ++
      match facing with
      | some f => " " ++ f.text
      | none => ""
  | stand beats dir => "MT " ++ beats.text ++ " " ++ dir.text
  | standOut dir => "MTRM " ++ dir.text
  | wheel angle steps p backwards =>
    (if backwards then "ROTATE BACK " else "ROTATE ") ++ angle.text ++ " " ++ steps.text ++ " " ++
      p.text

def Statement.text (s : Statement) : String := s.action.text

end FieldShow
