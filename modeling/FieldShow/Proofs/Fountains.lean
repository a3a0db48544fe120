import FieldShow.Proofs.Marked

/-!
Fountains. A marcher divides by the determinant of its two paces or, when they all but agree, by a
component of the first, and takes care that the divisor is not near zero. Only if both components
are, as for steps of no size, this care is in vain.
-/

namespace FieldShow

/-- What a marcher takes of a fountain: two paces and the way to the place. -/
structure Fountain where
  one : Pace
  two : Pace
  way : Vec

namespace Fountain

def seen (st : Station) (first second : Expr) (size₁ size₂ : Option Expr) (p : Target) :
    Noted Fountain := do
  let first ← first.eval st
  let one := Pace.polar first (← Expr.evalD st 1 size₁)
  let second ← second.eval st
  let two := Pace.polar second (← Expr.evalD st 1 size₂)
  return ⟨one, two, (← p.locate st) - st.pos⟩

variable (f : Fountain)

def det : Float := f.one.x * f.two.y - f.two.x * f.one.y

/-- The component of the first pace that is divided by when the paces agree. -/
def component : Float := if nearZero f.one.y then f.one.x else f.one.y

def meeting : Meeting := .of f.one f.two (Vec.steps f.way.x) (Vec.steps f.way.y)

/-- The two paces are all but the same, and the place lies all but in their direction. -/
structure Aligned : Prop where
  x : nearZero (f.one.x - f.two.x)
  y : nearZero (f.one.y - f.two.y)
  way : nearZero (Vec.steps f.way.x * f.one.y - f.one.x * Vec.steps f.way.y)

structure Stuck : Prop where
  det : nearZero f.det
  component : nearZero f.component

variable {f}

theorem meeting_crossing (h : nearZero f.det = false) :
    ∃ first second, f.meeting = .crossing ⟨first, f.det⟩ ⟨second, f.det⟩ := by
  unfold meeting Meeting.of
  unfold det at h
  simp only [h]
  exact ⟨_, _, rfl⟩

theorem meeting_parallel (h : nearZero f.det) (ha : f.Aligned) :
    ∃ dividend, f.meeting = .parallel ⟨dividend, f.component⟩ := by
  have hcond := And.intro ha.x (And.intro ha.y ha.way)
  unfold det at h
  unfold meeting Meeting.of component
  simp only [h, if_true, if_pos hcond]
  split
  · exact ⟨_, rfl⟩
  · exact ⟨_, rfl⟩

theorem meeting_impossible (h : nearZero f.det) (ha : ¬f.Aligned) : f.meeting = .impossible := by
  have hcond : ¬(nearZero (f.one.x - f.two.x) ∧ nearZero (f.one.y - f.two.y) ∧
      nearZero (Vec.steps f.way.x * f.one.y - f.one.x * Vec.steps f.way.y)) :=
    fun ⟨hx, hy, hway⟩ => ha ⟨hx, hy, hway⟩
  unfold det at h
  unfold meeting Meeting.of
  simp only [h, if_true, if_neg hcond]

theorem divisor_eq {q : Quotient} (hq : q ∈ f.meeting.quotients) :
    q.divisor = f.det ∨ q.divisor = f.component := by
  cases hdet : nearZero f.det with
  | false =>
    obtain ⟨first, second, hmeeting⟩ := meeting_crossing hdet
    rw [hmeeting, Meeting.quotients] at hq
    obtain rfl | rfl : q = ⟨first, f.det⟩ ∨ q = ⟨second, f.det⟩ := by simpa using hq
    · exact .inl rfl
    · exact .inl rfl
  | true =>
    by_cases ha : f.Aligned
    · obtain ⟨dividend, hmeeting⟩ := meeting_parallel hdet ha
      rw [hmeeting, Meeting.quotients] at hq
      rw [List.mem_singleton.1 hq]
      exact .inr rfl
    · rw [meeting_impossible hdet ha, Meeting.quotients] at hq
      cases hq

theorem divisors_iff :
    (∀ q ∈ f.meeting.quotients, nearZero q.divisor = false) ↔ ¬(f.Stuck ∧ f.Aligned) := by
  cases hdet : nearZero f.det with
  | false =>
    obtain ⟨first, second, hmeeting⟩ := meeting_crossing hdet
    have hfree : ¬(f.Stuck ∧ f.Aligned) := fun ⟨hstuck, _⟩ =>
      Bool.false_ne_true (hdet.symm.trans hstuck.det)
    refine iff_of_true ?_ hfree
    rw [hmeeting, Meeting.quotients]
    simp [hdet]
  | true =>
    by_cases ha : f.Aligned
    · obtain ⟨dividend, hmeeting⟩ := meeting_parallel hdet ha
      have hstuck : f.Stuck ∧ f.Aligned ↔ nearZero f.component :=
        ⟨fun h => h.1.component, fun h => ⟨⟨hdet, h⟩, ha⟩⟩
      rw [hmeeting, Meeting.quotients, List.forall_mem_singleton, hstuck, Bool.not_eq_true]
    · refine iff_of_true ?_ fun h => ha h.2
      rw [meeting_impossible hdet ha, Meeting.quotients]
      exact nofun

end Fountain

section

variable (st : Station) (first second : Expr) (size₁ size₂ : Option Expr) (p : Target)

theorem Action.plan_fountain :
    (Action.fountain first second size₁ size₂ p).plan st = do
      let f ← Fountain.seen st first second size₁ size₂ p
      return .go (← f.meeting.legs f.one f.two f.way) := by
  simp only [Action.plan, Fountain.seen, bind, pure, List.append_assoc, List.append_nil]
  rfl

end

namespace Progress

variable {c : Cue} {s t : Progress} {first second : Expr} {size₁ size₂ : Option Expr} {p : Target}
  {f : Fountain}

theorem perform_fountain_eq
    (hf : (Fountain.seen (s.station c) first second size₁ size₂ p).value = f) :
    s.perform c (.fountain first second size₁ size₂ p) =
      (s.noteAll c ((Fountain.seen (s.station c) first second size₁ size₂ p).mistakes ++
        (f.meeting.legs f.one f.two f.way).mistakes)).appendAll c
          (f.meeting.legs f.one f.two f.way).value := by
  subst hf
  rw [perform, Action.plan_fountain]
  simp only [Noted.mistakes_bind, Noted.value_bind, Noted.mistakes_pure, Noted.value_pure,
    List.append_nil]
  rfl

/-- A fountain divides by its determinant or by a component of its first pace. The divisor is never
near zero, but for two paces that all but agree and of which no component is worth the name. If the
determinant is near zero and the paces or their direction do not agree, a bad fountain is noted, and
the marcher stays where it is. -/
theorem perform_fountain
    (hf : (Fountain.seen (s.station c) first second size₁ size₂ p).value = f)
    (ht : s.perform c (.fountain first second size₁ size₂ p) = t) :
    (∀ q ∈ f.meeting.quotients, q.divisor = f.det ∨ q.divisor = f.component) ∧
    ((∀ q ∈ f.meeting.quotients, nearZero q.divisor = false) ↔ ¬(f.Stuck ∧ f.Aligned)) ∧
    (nearZero f.det → ¬f.Aligned →
      c.point ∈ t.markers.points .badFountain ∧ t = { s with markers := t.markers }) := by
  refine ⟨fun q hq => Fountain.divisor_eq hq, Fountain.divisors_iff, fun hdet ha => ?_⟩
  have hperform := perform_fountain_eq hf
  rw [Fountain.meeting_impossible hdet ha, ht] at hperform
  change t = s.noteAll c (_ ++ [.badFountain]) at hperform
  rw [hperform, ← noteAll_eq, mem_points_noteAll]
  exact ⟨.inr ⟨rfl, List.mem_append_right _ (.head _)⟩, rfl⟩

theorem perform_fountain_opposed :
    let cue : Cue := ⟨0, .plain, { position := 0 }, some ⟨160, 160⟩, none⟩
    let s : Progress := .start 0 4 .empty .empty
    ∃ f t, (Fountain.seen (s.station cue) (.constant .east) (.constant .west) none none
        .next).value = f ∧
      s.perform cue (.fountain (.constant .east) (.constant .west) none none .next) = t ∧
      nearZero f.det ∧ ¬f.Aligned ∧ 0 ∈ t.markers.points .badFountain ∧ t.motions = #[] := by
  intro cue s
  have hdet : nearZero (Fountain.det (Fountain.seen (s.station cue) (.constant .east)
      (.constant .west) none none .next).value) := by decide +kernel
  have ha : ¬Fountain.Aligned (Fountain.seen (s.station cue) (.constant .east)
      (.constant .west) none none .next).value := fun h => absurd h.x (by decide +kernel)
  obtain ⟨-, -, hstay⟩ := perform_fountain (c := cue) (s := s) rfl rfl
  obtain ⟨hbad, heq⟩ := hstay hdet ha
  exact ⟨_, _, rfl, rfl, hdet, ha, hbad, congrArg Progress.motions heq⟩

/-- With steps of no size the marcher divides by zero, and is sent off for as long as a count of
beats can be. -/
theorem perform_fountain_frozen :
    let cue : Cue :=
      ⟨0, .plain, { position := 0, refs := #v[some ⟨160, 0⟩, none, none] }, none, none⟩
    let s : Progress := .start 0 4 .empty .empty
    ∃ f t, (Fountain.seen (s.station cue) (.constant .north) (.constant .east) (some (.number 0))
        (some (.number 0)) (.ref 1)).value = f ∧
      s.perform cue (.fountain (.constant .north) (.constant .east) (some (.number 0))
        (some (.number 0)) (.ref 1)) = t ∧
      f.Stuck ∧ ¬(∀ q ∈ f.meeting.quotients, nearZero q.divisor = false) ∧
      ¬0 ∈ t.markers.points .badFountain ∧
      t.motions = #[⟨4, 0, .line ⟨160, 0⟩ 2147483647 0⟩] := by
  intro cue s
  refine ⟨_, _, rfl, rfl, ⟨by decide +kernel, by decide +kernel⟩, ?_, by decide +kernel,
    by decide +kernel⟩
  decide +kernel

end Progress
end FieldShow
