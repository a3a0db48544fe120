import FieldShow.Routine.Evaluation

/-!
Three kinds of mistakes are about when and where a program ends; all the others are slips in what a
statement says. Evaluating a place, an expression or a count never notes anything but slips.
-/

namespace FieldShow

/-- A mistake in what a statement says. -/
def Mistake.IsSlip : Mistake → Prop
  | .outOfTime | .timeLeft | .wrongPlace => False
  | _ => True

namespace Noted

variable {α β : Type}

def Slips (n : Noted α) : Prop := ∀ k ∈ n.mistakes, k.IsSlip

@[simp] theorem slips_pure (a : α) : (pure a : Noted α).Slips := by simp [Slips]

@[simp] theorem slips_bind (n : Noted α) (f : α → Noted β) :
    (n >>= f).Slips ↔ n.Slips ∧ (f n.value).Slips := by
  simp only [Slips, mistakes_bind, List.mem_append, or_imp, forall_and]

@[simp] theorem slips_map (n : Noted α) (f : α → β) : (f <$> n).Slips ↔ n.Slips := by
  change (n >>= fun a => pure (f a)).Slips ↔ _
  simp

@[simp] theorem value_map (n : Noted α) (f : α → β) : (f <$> n).value = f n.value := rfl

@[simp] theorem slips_despite (k : Mistake) (a : α) : (despite k a).Slips ↔ k.IsSlip := by
  simp [Slips]

@[simp] theorem slips_noteIf (c : Prop) [Decidable c] (k : Mistake) :
    (noteIf c k).Slips ↔ (c → k.IsSlip) := by
  by_cases hc : c <;> simp [Slips, hc]

end Noted

@[simp] theorem Target.locate_slips (st : Station) (p : Target) : (p.locate st).Slips := by
  cases p with
  | here => simp [locate]
  | start => simp [locate]
  | next => cases h : st.next <;> simp [locate, h, Mistake.IsSlip]
  | ref n =>
    simp only [locate]
    split <;> simp [Mistake.IsSlip]

@[simp] theorem Slot.read_slips (st : Station) (s : Slot) : (s.read st).Slips := by
  cases h : st.remembered s <;> simp [Slot.read, h, Mistake.IsSlip]

@[simp] theorem Expr.eval_slips (st : Station) (e : Expr) : (e.eval st).Slips := by
  induction e with
  | number | constant | remaining | slot => simp [eval]
  | neg a ha => simp [eval, ha]
  | add a b ha hb | sub a b ha hb | mul a b ha hb => simp [eval, ha, hb]
  | div a b ha hb =>
    simp only [eval, Noted.slips_bind, hb, true_and]
    split <;> simp [ha, Mistake.IsSlip]
  | direction p | directionBetween p q => simp [eval, Mistake.IsSlip]
  | distance p | distanceBetween p q => simp [eval]
  | nearer a b p ha hb =>
    simp only [eval, Noted.slips_bind, Target.locate_slips, ha, true_and]
    split <;> simp [hb, Mistake.IsSlip]
  | opposite a ha => simp [eval, ha]
  | stepDrill a b p ha hb =>
    simp only [eval, Noted.slips_bind, Target.locate_slips, ha, hb, true_and]
    split <;> simp [Mistake.IsSlip]

@[simp] theorem Expr.evalD_slips (st : Station) (x : Float) (e : Option Expr) :
    (evalD st x e).Slips := by
  cases e <;> simp [evalD]

@[simp] theorem toCount_slips (x : Float) : (toCount x).Slips := by simp [toCount, Mistake.IsSlip]

@[simp] theorem toBeats_slips (x : Float) : (toBeats x).Slips := by
  simp only [toBeats, Noted.slips_bind, toCount_slips, true_and]
  split <;> simp [Mistake.IsSlip]

end FieldShow
