import FieldShow.Routine.Progress

/-!
Countermarches. A marcher follows a parallelogram from corner to corner, from the leg on which
it stands, until its strides are used up.
-/

namespace FieldShow

/-- The corners of a loop in the order in which they are reached, and the direction of the leg
that ends in each. -/
structure Circuit where
  corners : Vector Vec 4
  headings : Vector Float 4
deriving Repr

namespace Circuit

/-- The loop whose first leg starts at `entry` and whose third leg ends where `through` lies, a
leg's length before it. Two directions that all but agree make none. -/
def lay? (entry through : Vec) (steps first second : Float) : Option Circuit :=
  let sinBetween := Angle.sin (first - second)
  if nearZero sinBetween then none
  else
    let v := Vec.march first steps
    let p₁ := entry + v
    let across :=
      (through - p₁).length * Angle.sin (through.directionTo p₁ - first) / sinBetween
    let w := Vec.march second
      (if Angle.isDiagonal second then across / Vec.diagonalStride else across)
    let p₂ := p₁ + w
    let p₃ := through - v
    let p₀ := p₃ - w
    some ⟨#v[p₀, p₁, p₂, p₃], #v[second + 180, first, second, first + 180]⟩

def OnLeg (c : Circuit) (pos : Vec) (leg : Fin 4) : Prop :=
  let v := c.corners[leg] - pos
  v ≠ 0 ∧ nearZero (Angle.signed (v.direction - c.headings[leg]))

instance (c : Circuit) (pos : Vec) (leg : Fin 4) : Decidable (c.OnLeg pos leg) :=
  inferInstanceAs (Decidable (_ ∧ _))

/-- The first leg, beginning with the one that opens the loop, on which a place lies. -/
def legAt? (c : Circuit) (pos : Vec) : Option (Fin 4) :=
  [1, 2, 3, 0].find? fun leg => c.OnLeg pos leg

def reach (cue : Cue) (v : Vec) (s : Progress) : Nat × Progress :=
  if v = 0 then (0, s)
  else
    let beats := toBeats v.strides
    (beats.value, (s.noteAll cue beats.mistakes).append cue (.line beats.value v))

theorem remaining_reach (cue : Cue) (v : Vec) (s : Progress) :
    (reach cue v s).2.remaining = s.remaining - (reach cue v s).1 := by
  unfold reach
  split
  · rfl
  · simp [Progress.remaining_append, Progress.remaining_noteAll, Motion.line, Motion.lineFacing]

/-- Along the loop for a number of strides. `idle` counts the legs since a beat was last used:
when a whole lap takes none, the countermarch is given up. -/
def walk (cue : Cue) (c : Circuit) (leg : Fin 4) (strides : Float) (idle : Nat) (s : Progress) :
    Progress :=
  if ¬0 < strides then s
  else if s.remaining = 0 then if 0.5 ≤ strides then s.runOut cue else s
  else
    let v := c.corners[leg] - s.pos
    if v.strides ≤ strides then
      let after := reach cue v s
      if after.1 = 0 then
        if 4 ≤ idle + 1 then after.2.note cue .badCountermarch
        else walk cue c (leg + 1) (strides - v.strides) (idle + 1) after.2
      else walk cue c (leg + 1) (strides - v.strides) 0 after.2
    else
      let beats := toBeats strides
      (s.noteAll cue beats.mistakes).append cue
        (.line beats.value (Vec.march c.headings[leg] strides))
termination_by (s.remaining, 4 - idle)
decreasing_by
  · have : after.2.remaining = s.remaining := by
      have := remaining_reach cue v s
      grind
    rw [this]
    exact Prod.Lex.right _ (by omega)
  · refine Prod.Lex.left _ _ ?_
    have := remaining_reach cue v s
    grind

end Circuit

/-- The legs of a countermarch in diagonal military: `through` lies two steps beside a diagonal
through `entry`. -/
def diagonalHeadings? (entry through : Vec) : Option (Constant × Constant) :=
  let dx := entry.x.toInt - through.x.toInt
  let dy := entry.y.toInt - through.y.toInt
  let two : Int := 2 * unitsPerStep
  if dy = -dx + two ∧ 0 ≤ dy then some (.southwest, .west)
  else if dy = dx - two ∧ 0 ≤ dy then some (.southeast, .west)
  else if dy = dx + two ∧ dy ≤ 0 then some (.northwest, .east)
  else if dy = -dx - two ∧ dy ≤ 0 then some (.northeast, .east)
  else none

/-- The legs of a countermarch in high step: `through` lies two steps to the side. -/
def straightHeadings? (entry through : Vec) : Option (Constant × Constant) :=
  let dx := entry.x.toInt - through.x.toInt
  let two : Int := 2 * unitsPerStep
  if dx = two ∧ through.y ≤ entry.y then some (.south, .west)
  else if dx = -two ∧ entry.y ≤ through.y then some (.north, .east)
  else none

end FieldShow
