/-!
Slips of those who write continuities. None of them stops a show: each is noted and the marchers
do the best they can.
-/

namespace FieldShow

inductive Mistake where
  /-- A motion needed more beats than were left. -/
  | outOfTime
  /-- Beats were left after the last statement. -/
  | timeLeft
  /-- The program did not lead to the place on the next sheet. -/
  | wrongPlace
  | badCountermarch
  | badFountain
  | divisionByZero
  /-- A variable was read before it was set. -/
  | unsetSlot
  /-- A direction to where one already stands. -/
  | noDirection
  /-- The next sheet was named on the last one. -/
  | noNextSheet
  /-- A reference point beyond those that a marcher has. -/
  | noSuchReference
  /-- A count that is no integer. -/
  | fractionalCount
  | negativeCount
deriving DecidableEq, Repr

namespace Mistake

/-- In the order of declaration, which is the order of every listing. -/
def all : List Mistake :=
  [outOfTime, timeLeft, wrongPlace, badCountermarch, badFountain, divisionByZero, unsetSlot,
    noDirection, noNextSheet, noSuchReference, fractionalCount, negativeCount]

def index : Mistake → Fin 12
  | outOfTime => 0 | timeLeft => 1 | wrongPlace => 2 | badCountermarch => 3
  | badFountain => 4 | divisionByZero => 5 | unsetSlot => 6 | noDirection => 7
  | noNextSheet => 8 | noSuchReference => 9 | fractionalCount => 10 | negativeCount => 11

theorem index_inj {j k : Mistake} (h : j.index = k.index) : j = k := by
  cases j <;> cases k <;> first | rfl | cases h

def text : Mistake → String
  | outOfTime => "Ran out of time"
  | timeLeft => "Not enough to do"
  | wrongPlace => "Didn't make it to position"
  | badCountermarch => "Invalid countermarch"
  | badFountain => "Invalid fountain"
  | divisionByZero => "Division by zero"
  | unsetSlot => "Undefined value"
  | noDirection => "Undefined direction"
  | noNextSheet => "No next sheet"
  | noSuchReference => "Undefined point"
  | fractionalCount => "Non-integer value"
  | negativeCount => "Negative value"

end Mistake
end FieldShow
