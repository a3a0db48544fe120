import FieldShow.Show.Basic

/-!
Valid shows: every sheet places the same marchers, each of them within the limits of the field.
The check names the first sheet, and there the first marcher, that is not as it should be.
-/

namespace FieldShow

def Placement.Valid (p : Placement) : Prop := ∀ v ∈ p.places, v.InRange

instance (p : Placement) : Decidable p.Valid := inferInstanceAs (Decidable (∀ v ∈ p.places, _))

def Sheet.Valid (size : Nat) (s : Sheet) : Prop :=
  s.placements.length = size ∧ ∀ p ∈ s.placements, p.Valid

instance (size : Nat) (s : Sheet) : Decidable (s.Valid size) :=
  inferInstanceAs (Decidable (_ ∧ ∀ p ∈ s.placements, _))

def Show.Valid (s : Show) : Prop := ∀ sheet ∈ s.sheets, sheet.Valid s.size

instance (s : Show) : Decidable s.Valid :=
  inferInstanceAs (Decidable (∀ sheet ∈ s.sheets, _))

def Placement.stray? (p : Placement) : Option Vec := p.places.find? fun v => ¬v.InRange

def Sheet.strayFault? (index : Nat) (name : String) : Nat → List Placement → Option Fault
  | _, [] => none
  | i, p :: rest =>
    match p.stray? with
    | some v => some (.misplacedPoint index name i v.x.toInt v.y.toInt Vec.limit)
    | none => strayFault? index name (i + 1) rest

def Sheet.fault? (size index : Nat) (s : Sheet) : Option Fault :=
  if s.placements.length ≠ size then
    some (.unevenSheet index s.name s.placements.length size)
  else strayFault? index s.name 0 s.placements

def Show.sheetsFault? (size : Nat) : Nat → List Sheet → Option Fault
  | _, [] => none
  | i, s :: rest => (s.fault? size i).or (sheetsFault? size (i + 1) rest)

def Show.fault? (s : Show) : Option Fault := sheetsFault? s.size 0 s.sheets

theorem Placement.stray?_eq_none_iff (p : Placement) : p.stray? = none ↔ p.Valid := by
  simp [stray?, Valid]

theorem Sheet.strayFault?_eq_none_iff (index : Nat) (name : String) (i : Nat)
    (ps : List Placement) : strayFault? index name i ps = none ↔ ∀ p ∈ ps, p.Valid := by
  induction ps generalizing i with
  | nil => simp [strayFault?]
  | cons p rest ih =>
    rw [List.forall_mem_cons, ← ih (i + 1), ← Placement.stray?_eq_none_iff, strayFault?]
    split <;> simp_all

theorem Sheet.fault?_eq_none_iff (size index : Nat) (s : Sheet) :
    s.fault? size index = none ↔ s.Valid size := by
  unfold fault? Valid
  split <;> simp_all [strayFault?_eq_none_iff]

theorem Show.sheetsFault?_eq_none_iff (size i : Nat) (sheets : List Sheet) :
    sheetsFault? size i sheets = none ↔ ∀ s ∈ sheets, s.Valid size := by
  induction sheets generalizing i with
  | nil => simp [sheetsFault?]
  | cons s rest ih => simp [sheetsFault?, Sheet.fault?_eq_none_iff, ih]

/-- The check finds a fault exactly in the shows that are not valid. -/
theorem Show.fault?_eq_none_iff (s : Show) : s.fault? = none ↔ s.Valid :=
  sheetsFault?_eq_none_iff ..

def Show.validate (s : Show) : Except Fault Show :=
  match s.fault? with
  | some f => .error f
  | none => .ok s

end FieldShow
