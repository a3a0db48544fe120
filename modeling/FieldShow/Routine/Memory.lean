import FieldShow.Continuity.Basic

/-! What marchers remember: the variables that they have set, each marcher its own. -/

namespace FieldShow

structure Entry where
  point : Nat
  slot : Slot
  value : Float
deriving DecidableEq, Repr

structure Memory where
  entries : List Entry
deriving DecidableEq, Repr

namespace Memory

def empty : Memory := ⟨[]⟩

def setEntries (point : Nat) (slot : Slot) (value : Float) : List Entry → List Entry
  | [] => [⟨point, slot, value⟩]
  | e :: rest =>
    if e.point = point ∧ e.slot = slot then ⟨point, slot, value⟩ :: rest
    else e :: setEntries point slot value rest

def set (m : Memory) (point : Nat) (slot : Slot) (value : Float) : Memory :=
  ⟨setEntries point slot value m.entries⟩

def get? (m : Memory) (point : Nat) (slot : Slot) : Option Float :=
  (m.entries.find? fun e => e.point = point ∧ e.slot = slot).map Entry.value

theorem get?_empty (point : Nat) (slot : Slot) : empty.get? point slot = none := rfl

theorem get?_set_self (m : Memory) (point : Nat) (slot : Slot) (value : Float) :
    (m.set point slot value).get? point slot = some value := by
  obtain ⟨entries⟩ := m
  simp only [set, get?]
  induction entries with
  | nil => simp [setEntries]
  | cons e rest ih =>
    unfold setEntries
    split
    · simp
    · next h => simpa [List.find?_cons, h] using ih

theorem get?_set_of_ne {m : Memory} {point p : Nat} {slot s : Slot}
    (h : ¬(point = p ∧ slot = s)) (value : Float) :
    (m.set point slot value).get? p s = m.get? p s := by
  obtain ⟨entries⟩ := m
  simp only [set, get?]
  induction entries with
  | nil => simp [setEntries, h]
  | cons e rest ih => grind [setEntries]

end Memory
end FieldShow
