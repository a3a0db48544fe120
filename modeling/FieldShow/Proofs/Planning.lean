import FieldShow.Routine.Plan
import FieldShow.Proofs.Slips
import FieldShow.Proofs.Span

/-!
What a statement is planned to do, whatever its expressions evaluate to: motions that have not
begun and last as long as their paths, met with slips only.
-/

namespace FieldShow

namespace Plan

/-- The motions of a plan are fresh, and what was noted on the way to them are slips. -/
def Sound : Plan → Prop
  | go legs => ∀ leg ∈ legs, leg.value.Fresh ∧ leg.Slips
  | _ => True

@[simp] theorem sound_remember (s : Slot) (x : Float) : (remember s x).Sound := trivial

@[simp] theorem sound_circuit (c : Circuit) (leg : Fin 4) (x : Float) : (circuit c leg x).Sound :=
  trivial

@[simp] theorem sound_nothing : nothing.Sound := by simp [nothing, Sound]

@[simp] theorem sound_single (m : Motion) : (single m).Sound ↔ m.Fresh := by simp [single, Sound]

@[simp] theorem sound_go_append (ls ms : List (Noted Motion)) :
    (go (ls ++ ms)).Sound ↔ (go ls).Sound ∧ (go ms).Sound := by
  simp only [Sound, List.forall_mem_append]

@[simp] theorem sound_wholeSteps (v : Vec) : (go (wholeSteps v)).Sound := by
  unfold wholeSteps
  split <;> simp [Sound]

@[simp] theorem fresh_directed (n : Int32) (v : Vec) : (directed n v).Fresh := by
  unfold directed
  split <;> simp

theorem around_sound (st : Station) (entry through : Vec) (steps first second x : Float) :
    (around st entry through steps first second x).Slips ∧
      (around st entry through steps first second x).value.Sound := by
  unfold around
  split
  · simp [Mistake.IsSlip]
  · split <;> simp [Mistake.IsSlip]

theorem aroundBy_sound (st : Station) (entry through : Vec) (hs : Option (Constant × Constant))
    (x : Float) : (aroundBy st entry through hs x).Slips ∧
      (aroundBy st entry through hs x).value.Sound := by
  cases hs with
  | none => simp [aroundBy, Mistake.IsSlip]
  | some hs => exact around_sound ..

end Plan

namespace Meeting

theorem leg_sound (p : Pace) (x : Float) : (Plan.go (leg p x)).Sound := by
  unfold leg
  split <;> simp [Plan.Sound]

theorem legs_sound (p q : Pace) (v : Vec) (m : Meeting) :
    (m.legs p q v).Slips ∧ (Plan.go (m.legs p q v).value).Sound := by
  cases m with
  | crossing first second => simp [legs, leg_sound]
  | parallel beats => simp [legs, Plan.Sound]
  | impossible => simp [legs, Plan.Sound, Mistake.IsSlip]

end Meeting

theorem Action.plan_sound (st : Station) (a : Action) :
    (a.plan st).Slips ∧ (a.plan st).value.Sound := by
  cases a with
  | countermarch => simp [plan, Plan.around_sound]
  | diagonalCountermarch | straightCountermarch => simp [plan, Plan.aroundBy_sound]
  | fountain => simp [plan, Meeting.legs_sound]
  | forward steps direction =>
    simp only [plan, Noted.slips_bind, Expr.eval_slips, toCount_slips, Noted.value_bind, true_and]
    split
    · simp
    · simp only [Noted.slips_bind, Expr.eval_slips, Noted.slips_pure, Noted.value_bind,
        Noted.value_pure, true_and]
      split <;> simp
  | forwardTo p | toGrid size =>
    simp only [plan, Noted.slips_bind, Target.locate_slips, Expr.eval_slips, Noted.slips_pure,
      Noted.value_bind, Noted.value_pure, true_and]
    split <;> simp
  | march size steps direction facing =>
    simp only [plan, Noted.slips_bind, Expr.eval_slips, toCount_slips, Noted.value_bind, true_and]
    split
    · simp
    · simp only [Noted.slips_bind, Expr.eval_slips, Noted.value_bind, true_and]
      split
      · simp
      · cases facing <;> simp
  | stand beats direction =>
    simp only [plan, Noted.slips_bind, Expr.eval_slips, toCount_slips, Noted.value_bind, true_and]
    split <;> simp
  | wheel angle steps center backwards =>
    simp only [plan, Noted.slips_bind, Target.locate_slips, Noted.value_bind, true_and]
    split <;> simp
  | _ => simp [plan]

end FieldShow
