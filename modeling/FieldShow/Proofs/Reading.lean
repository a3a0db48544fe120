import FieldShow.Routine.Plan

/-!
The variables that are read on the way to a plan. Some parts of a statement are passed over, so this
depends on what the marcher sees; an unset variable is noted just when one is read that is not set.
-/

namespace FieldShow

namespace Expr

def reads (st : Station) : Expr → List Slot
  | slot s => [s]
  | neg a | opposite a => a.reads st
  | add a b | sub a b | mul a b | stepDrill a b _ => a.reads st ++ b.reads st
  | div a b => b.reads st ++ if nearZero (b.eval st).value then [] else a.reads st
  | nearer a b p => a.reads st ++ if (p.locate st).value = st.pos then [] else b.reads st
  | number _ | constant _ | remaining | direction _ | directionBetween .. | distance _ |
    distanceBetween .. => []

def readsD (st : Station) (e : Option Expr) : List Slot := (e.map (reads st)).getD []

end Expr

def Action.reads (st : Station) : Action → List Slot
  | assign _ value => value.reads st
  | countermarch _ _ steps first second beats =>
    first.reads st ++ second.reads st ++ steps.reads st ++ beats.reads st
  | diagonalCountermarch _ _ beats | straightCountermarch _ _ beats => beats.reads st
  | evenly beats _ => beats.reads st
  | fountain first second size₁ size₂ _ =>
    first.reads st ++ Expr.readsD st size₁ ++ second.reads st ++ Expr.readsD st size₂
  | forward steps direction =>
    steps.reads st ++
      if (toCount (steps.eval st).value).value = 0 then [] else direction.reads st
  | toGrid size => size.reads st
  | march size steps direction facing =>
    steps.reads st ++
      if (toCount (steps.eval st).value).value = 0 then []
      else
        direction.reads st ++ size.reads st ++
          if Vec.polar (direction.eval st).value ((size.eval st).value * (steps.eval st).value) = 0
          then [] else Expr.readsD st facing
  | stand beats direction =>
    beats.reads st ++
      if (toCount (beats.eval st).value).value = 0 then [] else direction.reads st
  | standOut direction => direction.reads st
  | wheel angle steps center _ =>
    (if (center.locate st).value = st.pos then [.doh] else []) ++ steps.reads st ++ angle.reads st
  | blam | diagonalFirst _ | straightFirst _ | eastWestFirst _ | northSouthFirst _ | forwardTo _ |
    jump _ => []

namespace Noted

variable {α β : Type}

def Unset (n : Noted α) : Prop := .unsetSlot ∈ n.mistakes

@[simp] theorem unset_pure (a : α) : ¬(pure a : Noted α).Unset := by simp [Unset]

@[simp] theorem unset_bind (n : Noted α) (f : α → Noted β) :
    (n >>= f).Unset ↔ n.Unset ∨ (f n.value).Unset := by
  simp only [Unset, mistakes_bind, List.mem_append]

@[simp] theorem unset_despite (k : Mistake) (a : α) : (despite k a).Unset ↔ k = .unsetSlot := by
  simp [Unset, eq_comm]

@[simp] theorem unset_noteIf (c : Prop) [Decidable c] (k : Mistake) :
    (noteIf c k).Unset ↔ c ∧ k = .unsetSlot := by
  by_cases hc : c <;> simp [Unset, hc, eq_comm]

end Noted

def Station.Lacks (st : Station) (slots : List Slot) : Prop :=
  ∃ slot ∈ slots, st.remembered slot = none

namespace Station

variable (st : Station)

@[simp] theorem lacks_nil : ¬st.Lacks [] := by simp [Lacks]

@[simp] theorem lacks_append (l m : List Slot) : st.Lacks (l ++ m) ↔ st.Lacks l ∨ st.Lacks m := by
  simp only [Lacks, List.mem_append, or_and_right, exists_or]

end Station

@[simp] theorem Slot.unset_read (st : Station) (s : Slot) : (s.read st).Unset ↔ st.Lacks [s] := by
  cases h : st.remembered s <;> simp [Slot.read, h, Station.Lacks]

@[simp] theorem Target.unset_locate (st : Station) (p : Target) : ¬(p.locate st).Unset := by
  cases p with
  | here | start => simp [locate]
  | next => cases h : st.next <;> simp [locate, h]
  | ref n =>
    simp only [locate]
    split <;> simp

@[simp] theorem unset_toCount (x : Float) : ¬(toCount x).Unset := by simp [toCount]

@[simp] theorem Expr.unset_eval (st : Station) (e : Expr) :
    (e.eval st).Unset ↔ st.Lacks (e.reads st) := by
  induction e with
  | number | constant | remaining | slot | direction | directionBetween | distance |
    distanceBetween => simp [eval, reads]
  | neg a ha | opposite a ha => simp [eval, reads, ha]
  | add a b ha hb | sub a b ha hb | mul a b ha hb => simp [eval, reads, ha, hb]
  | div a b ha hb =>
    simp only [eval, reads, Noted.unset_bind, hb, Station.lacks_append]
    split <;> simp [ha]
  | nearer a b p ha hb =>
    simp only [eval, reads, Noted.unset_bind, Target.unset_locate, ha, Station.lacks_append,
      false_or]
    split <;> simp [hb]
  | stepDrill a b p ha hb =>
    simp only [eval, reads, Noted.unset_bind, Target.unset_locate, ha, hb, Station.lacks_append,
      false_or]
    split <;> simp

@[simp] theorem Expr.unset_evalD (st : Station) (x : Float) (e : Option Expr) :
    (evalD st x e).Unset ↔ st.Lacks (readsD st e) := by
  cases e <;> simp [evalD, readsD]

@[simp] theorem Plan.unset_around (st : Station) (entry through : Vec)
    (steps first second x : Float) : ¬(around st entry through steps first second x).Unset := by
  unfold around
  split
  · simp
  · split <;> simp

@[simp] theorem Plan.unset_aroundBy (st : Station) (entry through : Vec)
    (hs : Option (Constant × Constant)) (x : Float) : ¬(aroundBy st entry through hs x).Unset := by
  cases hs <;> simp [aroundBy]

@[simp] theorem Meeting.unset_legs (p q : Pace) (v : Vec) (m : Meeting) :
    ¬(m.legs p q v).Unset := by
  cases m <;> simp [legs]

theorem Action.unset_plan (st : Station) (a : Action) :
    (a.plan st).Unset ↔ st.Lacks (a.reads st) := by
  cases a with
  | forward =>
    simp only [plan, reads, Noted.unset_bind, Expr.unset_eval, unset_toCount, Station.lacks_append,
      false_or]
    split
    · simp
    · simp only [Noted.unset_bind, Expr.unset_eval]
      split <;> simp
  | forwardTo | toGrid =>
    simp only [plan, reads, Noted.unset_bind, Expr.unset_eval, Target.unset_locate]
    split <;> simp
  | march size steps direction facing =>
    simp only [plan, reads, Noted.unset_bind, Expr.unset_eval, unset_toCount, Station.lacks_append,
      false_or]
    split
    · simp
    · simp only [Noted.unset_bind, Expr.unset_eval, Station.lacks_append]
      split
      · simp
      · cases facing <;> simp [Expr.readsD, or_assoc]
  | stand =>
    simp only [plan, reads, Noted.unset_bind, Expr.unset_eval, unset_toCount, Station.lacks_append,
      false_or]
    split <;> simp
  | wheel =>
    simp only [plan, reads, Noted.unset_bind, Target.unset_locate, Station.lacks_append]
    split <;> simp [or_assoc]
  | _ => simp [plan, reads]

end FieldShow
