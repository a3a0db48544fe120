import FieldShow.Geometry.Angle

/-! The eight directions in which a marcher is drawn. -/

namespace FieldShow

inductive Compass where
  | east | northeast | north | northwest | west | southwest | south | southeast
deriving DecidableEq, Repr, Inhabited

namespace Compass

def octants : Vector Compass 8 :=
  #v[east, northeast, north, northwest, west, southwest, south, southeast]

/-- The octant whose middle lies nearest to an angle; the east without one. -/
def ofAngle (deg : Float) : Compass :=
  octants[Fin.ofNat 8 ((Angle.normalize deg + 22.5) / 45).toUInt64.toNat]

def name : Compass → String
  | east => "E"
  | northeast => "NE"
  | north => "N"
  | northwest => "NW"
  | west => "W"
  | southwest => "SW"
  | south => "S"
  | southeast => "SE"

end Compass
end FieldShow
