import FieldShow.Proofs.Legs
import FieldShow.Proofs.Saturation

/-!
The same places on a field whose origin lies elsewhere. What is evaluated and planned depends on
differences of places only, so that it is the same there, except for the corners of a loop, which
move along.
-/

namespace FieldShow

open Numeric

namespace Vec

/-- The one place lies off the other by `d`, exactly. -/
structure Moved (d v w : Vec) : Prop where
  x : w.x.toInt = v.x.toInt + d.x.toInt
  y : w.y.toInt = v.y.toInt + d.y.toInt

variable {d u v v' w w' : Vec}

theorem moved_add (h : v.AddFits d) : Moved d v (v + d) := ⟨(toInt_add h).1, (toInt_add h).2⟩

theorem InRange.addFits (h : (v + d).InRange) : v.AddFits d := by
  -- a sum that stopped at the end of the range would not be in the limits of the field
  have hlimit : limit = 16777216 := rfl
  obtain ⟨hx, hy⟩ := h
  simp only [add_def, toInt_saturate] at hx hy
  constructor <;> constructor <;> omega

theorem Moved.eq_iff (hv : Moved d v v') (hw : Moved d w w') : v' = w' ↔ v = w := by
  rw [eq_iff_toInt, eq_iff_toInt, hv.x, hv.y, hw.x, hw.y]
  omega

theorem Moved.sub_x (hv : Moved d v v') (hw : Moved d w w') :
    v'.x.toInt - w'.x.toInt = v.x.toInt - w.x.toInt := by
  rw [hv.x, hw.x]
  omega

theorem Moved.sub_y (hv : Moved d v v') (hw : Moved d w w') :
    v'.y.toInt - w'.y.toInt = v.y.toInt - w.y.toInt := by
  rw [hv.y, hw.y]
  omega

theorem Moved.sub (hv : Moved d v v') (hw : Moved d w w') : v' - w' = v - w := by
  rw [sub_def, sub_def, hv.sub_x hw, hv.sub_y hw]

theorem Moved.directionTo (hv : Moved d v v') (hw : Moved d w w') :
    v'.directionTo w' = v.directionTo w := congrArg direction (hw.sub hv)

theorem Moved.add (hv : Moved d v v') (h : v.AddFits u) (h' : v'.AddFits u) :
    Moved d (v + u) (v' + u) := by
  obtain ⟨hx, hy⟩ := toInt_add h
  obtain ⟨hx', hy'⟩ := toInt_add h'
  have := hv.x
  have := hv.y
  constructor <;> omega

theorem Moved.sub_right (hv : Moved d v v') (h : v.SubFits u) (h' : v'.SubFits u) :
    Moved d (v - u) (v' - u) := by
  obtain ⟨hx, hy⟩ := toInt_sub h
  obtain ⟨hx', hy'⟩ := toInt_sub h'
  have := hv.x
  have := hv.y
  constructor <;> omega

end Vec

open Vec

structure Noted.Rel {α β : Type} (R : α → β → Prop) (n : Noted α) (n' : Noted β) : Prop where
  value : R n.value n'.value
  mistakes : n'.mistakes = n.mistakes

namespace Noted

variable {α α' β β' : Type} {R : α → α' → Prop} {S : β → β' → Prop} {n : Noted α} {n' : Noted α'}

theorem Rel.bind {f : α → Noted β} {g : α' → Noted β'} (h : n'.mistakes = n.mistakes)
    (hfg : (f n.value).Rel S (g n'.value)) : (n >>= f).Rel S (n' >>= g) where
  value := hfg.value
  mistakes := by rw [mistakes_bind, mistakes_bind, h, hfg.mistakes]

theorem Rel.bind_eq (h : n.Rel R n') {f : α → Noted β} {g : α' → Noted β}
    (hfg : ∀ a a', R a a' → g a' = f a) : n' >>= g = n >>= f := by
  obtain ⟨value, mistakes⟩ := n'
  obtain ⟨hvalue, rfl⟩ := h
  change (⟨_, _⟩ : Noted β) = ⟨_, _⟩
  rw [hfg _ _ hvalue]

end Noted

structure Station.Shifted (d : Vec) (st st' : Station) : Prop where
  pos : Moved d st.pos st'.pos
  home : ∀ n, Moved d (st.home.reference n) (st'.home.reference n)
  next : Option.Rel (Moved d) st.next st'.next
  remaining : st'.remaining = st.remaining
  remembered : st'.remembered = st.remembered

namespace Station.Shifted

variable {d : Vec} {st st' : Station}

theorem locate (h : st.Shifted d st') (p : Target) :
    (p.locate st).Rel (Moved d) (p.locate st') := by
  cases p with
  | here => exact ⟨h.pos, rfl⟩
  | start => exact ⟨h.home 0, rfl⟩
  | next =>
    simp only [Target.locate]
    have hnext := h.next
    generalize st.next = v, st'.next = v' at hnext ⊢
    cases hnext with
    | some hv => exact ⟨hv, rfl⟩
    | none => exact ⟨h.pos, rfl⟩
  | ref n =>
    simp only [Target.locate]
    split
    · exact ⟨h.pos, rfl⟩
    · exact ⟨h.home _, rfl⟩

theorem eval (h : st.Shifted d st') (e : Expr) : e.eval st' = e.eval st := by
  induction e with
  | number | constant => rfl
  | remaining => simp only [Expr.eval, h.remaining]
  | slot s => simp only [Expr.eval, Slot.read, h.remembered]
  | neg a ha | opposite a ha => simp only [Expr.eval, ha]
  | add a b ha hb | sub a b ha hb | mul a b ha hb | div a b ha hb =>
    simp only [Expr.eval, ha, hb]
  | direction p =>
    exact (h.locate p).bind_eq fun v v' hv => by
      simp only [hv.eq_iff h.pos, h.pos.directionTo hv]
  | directionBetween p q =>
    exact (h.locate p).bind_eq fun v v' hv => (h.locate q).bind_eq fun w w' hw => by
      simp only [hv.eq_iff hw, hv.directionTo hw]
  | distance p => exact (h.locate p).bind_eq fun v v' hv => by rw [hv.sub h.pos]
  | distanceBetween p q =>
    exact (h.locate p).bind_eq fun v v' hv => (h.locate q).bind_eq fun w w' hw => by
      rw [hw.sub hv]
  | nearer a b p ha hb =>
    simp only [Expr.eval, ha, hb]
    exact (h.locate p).bind_eq fun v v' hv => by
      simp only [hv.eq_iff h.pos, h.pos.directionTo hv]
  | stepDrill a b p ha hb =>
    simp only [Expr.eval, ha, hb]
    exact (h.locate p).bind_eq fun v v' hv => by rw [hv.sub h.pos]

theorem evalD (h : st.Shifted d st') (x : Float) (e : Option Expr) :
    Expr.evalD st' x e = Expr.evalD st x e := by
  cases e with
  | none => rfl
  | some e => exact h.eval e

theorem plan_eq (h : st.Shifted d st') {a : Action} (ha : a.usesOrigin = false)
    (hc : a.countermarches = false) : a.plan st' = a.plan st := by
  cases a with
  | toGrid | wheel => cases ha
  | countermarch | diagonalCountermarch | straightCountermarch => cases hc
  | assign | forward | march | stand | standOut =>
    simp only [Action.plan, h.eval, h.remaining]
  | blam =>
    exact (h.locate .next).bind_eq fun v v' hv => by rw [hv.sub h.pos, h.remaining]
  | evenly beats p =>
    simp only [Action.plan, h.eval]
    exact (h.locate p).bind_eq fun v v' hv => by rw [hv.sub h.pos]
  | fountain first second size₁ size₂ p =>
    simp only [Action.plan, h.eval, h.evalD]
    refine bind_congr fun _ => bind_congr fun _ => bind_congr fun _ => bind_congr fun _ => ?_
    exact (h.locate p).bind_eq fun v v' hv => by rw [hv.sub h.pos]
  | diagonalFirst p | straightFirst p | eastWestFirst p | northSouthFirst p
  | forwardTo p | jump p =>
    exact (h.locate p).bind_eq fun v v' hv => by rw [hv.sub h.pos]

end Station.Shifted

namespace Circuit

structure Shifted (d : Vec) (c c' : Circuit) : Prop where
  corners : ∀ leg, Moved d (c.corners.get leg) (c'.corners.get leg)
  headings : c'.headings = c.headings

def across (entry through : Vec) (steps first second : Float) : Vec :=
  let p₁ := entry + Vec.march first steps
  let size := (through - p₁).length * Angle.sin (through.directionTo p₁ - first) /
    Angle.sin (first - second)
  Vec.march second (if Angle.isDiagonal second then size / Vec.diagonalStride else size)

theorem lay?_eq (entry through : Vec) (steps first second : Float) :
    lay? entry through steps first second =
      if nearZero (Angle.sin (first - second)) then none
      else
        let v := Vec.march first steps
        let w := across entry through steps first second
        some ⟨#v[through - v - w, entry + v, entry + v + w, through - v],
          #v[second + 180, first, second, first + 180]⟩ := rfl

def LayFits (entry through : Vec) (steps first second : Float) : Prop :=
  nearZero (Angle.sin (first - second)) = false →
    let v := Vec.march first steps
    let w := across entry through steps first second
    entry.AddFits v ∧ (entry + v).AddFits w ∧ through.SubFits v ∧ (through - v).SubFits w

instance (entry through : Vec) (steps first second : Float) :
    Decidable (LayFits entry through steps first second) := inferInstanceAs (Decidable (_ → _ ∧ _))

variable {d entry entry' through through' pos pos' : Vec} {steps first second : Float}

theorem lay?_shifted (he : Moved d entry entry') (ht : Moved d through through')
    (h : LayFits entry through steps first second)
    (h' : LayFits entry' through' steps first second) :
    Option.Rel (Shifted d) (lay? entry through steps first second)
      (lay? entry' through' steps first second) := by
  rw [lay?_eq, lay?_eq]
  split
  · exact .none
  · next hsin =>
    obtain ⟨h₁, h₂, h₃, h₄⟩ := h (by simpa using hsin)
    obtain ⟨h₁', h₂', h₃', h₄'⟩ := h' (by simpa using hsin)
    have hp₁ := he.add h₁ h₁'
    have hside : across entry' through' steps first second =
        across entry through steps first second := by
      simp only [across, ht.sub hp₁, ht.directionTo hp₁]
    rw [hside] at h₂' h₄' ⊢
    have hp₃ := ht.sub_right h₃ h₃'
    refine .some ⟨fun leg => ?_, rfl⟩
    match leg with
    | 0 => exact hp₃.sub_right h₄ h₄'
    | 1 => exact hp₁
    | 2 => exact hp₁.add h₂ h₂'
    | 3 => exact hp₃

theorem Shifted.legAt?_eq {c c' : Circuit} (hc : c.Shifted d c') (hp : Moved d pos pos') :
    c'.legAt? pos' = c.legAt? pos := by
  have hon (leg : Fin 4) : c'.OnLeg pos' leg ↔ c.OnLeg pos leg := by
    have hv : c'.corners[leg] - pos' = c.corners[leg] - pos := (hc.corners leg).sub hp
    simp only [OnLeg, hv, hc.headings]
  simp only [legAt?, hon]

end Circuit

theorem diagonalHeadings?_eq {d entry entry' through through' : Vec} (he : Moved d entry entry')
    (ht : Moved d through through') :
    diagonalHeadings? entry' through' = diagonalHeadings? entry through := by
  simp only [diagonalHeadings?, he.sub_x ht, he.sub_y ht]

theorem straightHeadings?_eq {d entry entry' through through' : Vec} (he : Moved d entry entry')
    (ht : Moved d through through') :
    straightHeadings? entry' through' = straightHeadings? entry through := by
  have hy := he.sub_y ht
  have h₁ : through'.y ≤ entry'.y ↔ through.y ≤ entry.y := by
    rw [Int32.le_iff_toInt_le, Int32.le_iff_toInt_le]
    omega
  have h₂ : entry'.y ≤ through'.y ↔ entry.y ≤ through.y := by
    rw [Int32.le_iff_toInt_le, Int32.le_iff_toInt_le]
    omega
  simp only [straightHeadings?, he.sub_x ht, h₁, h₂]

inductive Plan.Shifted (d : Vec) : Plan → Plan → Prop
  | remember (slot : Slot) (x : Float) : Shifted d (.remember slot x) (.remember slot x)
  | go (legs : List (Noted Motion)) : Shifted d (.go legs) (.go legs)
  | circuit {c c' : Circuit} (h : c.Shifted d c') (leg : Fin 4) (strides : Float) :
    Shifted d (.circuit c leg strides) (.circuit c' leg strides)

/-- The corners of the loop that a statement lays, if it lays one, come out exactly. -/
def Action.PlanFits (st : Station) : Action → Prop
  | countermarch p q steps first second _ =>
    Circuit.LayFits (p.locate st).value (q.locate st).value (steps.eval st).value
      (first.eval st).value (second.eval st).value
  | diagonalCountermarch p q _ =>
    ∀ hs ∈ diagonalHeadings? (p.locate st).value (q.locate st).value,
      Circuit.LayFits (p.locate st).value (q.locate st).value 1 hs.1.value hs.2.value
  | straightCountermarch p q _ =>
    ∀ hs ∈ straightHeadings? (p.locate st).value (q.locate st).value,
      Circuit.LayFits (p.locate st).value (q.locate st).value 1 hs.1.value hs.2.value
  | _ => True

instance (st : Station) : (a : Action) → Decidable (a.PlanFits st)
  | .countermarch .. => inferInstanceAs (Decidable (Circuit.LayFits ..))
  | .diagonalCountermarch .. | .straightCountermarch .. =>
    inferInstanceAs (Decidable (∀ hs ∈ (_ : Option _), Circuit.LayFits ..))
  | .assign .. | .blam | .diagonalFirst _ | .straightFirst _ | .eastWestFirst _ |
    .northSouthFirst _ | .evenly .. | .fountain .. | .forward .. | .forwardTo _ | .toGrid _ |
    .jump _ | .march .. | .stand .. | .standOut _ | .wheel .. => .isTrue trivial

namespace Station.Shifted

variable {d entry entry' through through' : Vec} {st st' : Station}

theorem around (h : st.Shifted d st') (he : Moved d entry entry') (ht : Moved d through through')
    {steps first second : Float} (hf : Circuit.LayFits entry through steps first second)
    (hf' : Circuit.LayFits entry' through' steps first second) (x : Float) :
    (Plan.around st entry through steps first second x).Rel (Plan.Shifted d)
      (Plan.around st' entry' through' steps first second x) := by
  have hlay := Circuit.lay?_shifted he ht hf hf'
  unfold Plan.around
  generalize Circuit.lay? entry through steps first second = c,
    Circuit.lay? entry' through' steps first second = c' at hlay ⊢
  cases hlay with
  | none => exact ⟨.go [], rfl⟩
  | some hc =>
    simp only [hc.legAt?_eq h.pos]
    split
    · exact ⟨.go [], rfl⟩
    · exact ⟨.circuit hc _ x, rfl⟩

theorem aroundBy (h : st.Shifted d st') (he : Moved d entry entry') (ht : Moved d through through')
    {hs : Option (Constant × Constant)}
    (hf : ∀ h ∈ hs, Circuit.LayFits entry through 1 h.1.value h.2.value)
    (hf' : ∀ h ∈ hs, Circuit.LayFits entry' through' 1 h.1.value h.2.value) (x : Float) :
    (Plan.aroundBy st entry through hs x).Rel (Plan.Shifted d)
      (Plan.aroundBy st' entry' through' hs x) := by
  cases hs with
  | none => exact ⟨.go [], rfl⟩
  | some hs => exact h.around he ht (hf hs rfl) (hf' hs rfl) x

theorem plan (h : st.Shifted d st') {a : Action} (ha : a.usesOrigin = false) (hf : a.PlanFits st)
    (hf' : a.PlanFits st') : (a.plan st).Rel (Plan.Shifted d) (a.plan st') := by
  cases hc : a.countermarches with
  | false =>
    have hplans := a.plan_plans st
    rw [h.plan_eq ha hc]
    refine ⟨?_, rfl⟩
    cases hvalue : (a.plan st).value with
    | remember slot x => exact .remember slot x
    | go legs => exact .go legs
    | circuit =>
      rw [hvalue] at hplans
      exact absurd (hc.symm.trans hplans) (by decide)
  | true =>
    cases a with
    | countermarch p q steps first second beats =>
      simp only [Action.PlanFits, h.eval] at hf'
      simp only [Action.plan, h.eval]
      refine .bind rfl (.bind rfl ?_)
      refine .bind (h.locate p).mistakes (.bind (h.locate q).mistakes ?_)
      exact .bind rfl (.bind rfl (h.around (h.locate p).value (h.locate q).value hf hf' _))
    | diagonalCountermarch p q beats =>
      have hhs := diagonalHeadings?_eq (h.locate p).value (h.locate q).value
      simp only [Action.PlanFits, hhs] at hf'
      simp only [Action.plan, h.eval]
      refine .bind (h.locate p).mistakes (.bind (h.locate q).mistakes (.bind rfl ?_))
      rw [hhs]
      exact h.aroundBy (h.locate p).value (h.locate q).value hf hf' _
    | straightCountermarch p q beats =>
      have hhs := straightHeadings?_eq (h.locate p).value (h.locate q).value
      simp only [Action.PlanFits, hhs] at hf'
      simp only [Action.plan, h.eval]
      refine .bind (h.locate p).mistakes (.bind (h.locate q).mistakes (.bind rfl ?_))
      rw [hhs]
      exact h.aroundBy (h.locate p).value (h.locate q).value hf hf' _
    | _ => cases hc

end Station.Shifted
end FieldShow
