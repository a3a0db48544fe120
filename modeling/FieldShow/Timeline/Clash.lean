import FieldShow.Geometry.Vec

/-! Marchers that come too close to each other. -/

namespace FieldShow

/-- Two marchers, the lower index first. -/
structure Pair where
  first : Nat
  second : Nat
deriving DecidableEq, Repr

namespace Pair

def of (a b : Nat) : Pair := ⟨min a b, max a b⟩

def Contains (p : Pair) (n : Nat) : Prop := p.first = n ∨ p.second = n

instance (p : Pair) (n : Nat) : Decidable (p.Contains n) := inferInstanceAs (Decidable (_ ∨ _))

end Pair

/-- How close two marchers are: at the least distance allowed, or closer. -/
inductive Closeness where
  | warning
  | intersect
deriving DecidableEq, Repr

namespace Closeness

def max : Closeness → Closeness → Closeness
  | warning, c => c
  | intersect, _ => intersect

def between (v w : Vec) (least : Int32) : Option Closeness :=
  let t := least.toInt
  if t < (v.x.toInt - w.x.toInt).natAbs ∨ t < (v.y.toInt - w.y.toInt).natAbs then none
  else if v.distanceSq w < t * t then some intersect
  else if v.distanceSq w = t * t then some warning
  else none

end Closeness

/-- Pairs that are too close, in the order of their indices. -/
abbrev Clashes := List (Pair × Closeness)

namespace Clashes

def withLater (least : Int32) (i : Nat) (v : Vec) : Nat → List Vec → Clashes
  | _, [] => []
  | j, w :: rest =>
    match Closeness.between v w least with
    | some c => (.of i j, c) :: withLater least i v (j + 1) rest
    | none => withLater least i v (j + 1) rest

def among (least : Int32) : Nat → List Vec → Clashes
  | _, [] => []
  | i, v :: rest => withLater least i v (i + 1) rest ++ among least (i + 1) rest

def find (positions : List Vec) (least : Int32) : Clashes := among least 0 positions

def worst? (clashes : Clashes) (n : Nat) : Option Closeness :=
  clashes.foldl (fun worst (pair, c) =>
    if pair.Contains n then some (worst.elim c (.max · c)) else worst) none

end Clashes
end FieldShow
