import Mathlib.Logic.Relation
import FieldShow.Proofs.Turns
import FieldShow.Proofs.Planning

/-!
What can happen to a marcher in the course of a sheet. Every program, whatever its statements and
mistakes are, is a sequence of five kinds of steps, so that what each of them keeps is kept by all
programs.
-/

namespace FieldShow

theorem Motion.rewind_toEnd (m : Motion) (p : Vec) :
    (Walk.mk m p).toEnd.motion.rewind = m.rewind := by
  unfold Walk.toEnd
  split <;> rfl

def Motion.over (m : Motion) : Motion := { m with cursor := m.beats }

theorem Walk.motion_toEnd (m : Motion) (p : Vec) : (Walk.mk m p).toEnd.motion = m.over := by
  unfold Walk.toEnd
  split
  · simp [Walk.seek, Motion.over]
  · next h =>
    have : m.beats = 0 := Nat.eq_zero_of_not_pos h
    simp [Motion.rewind, Motion.over, this]

namespace Progress

theorem motions_take (c : Cue) (m : Motion) (s : Progress) :
    (s.take c m).motions.toList = s.motions.toList ++ [m.rewind] := by
  simp only [take, Array.toList_push, Motion.rewind_toEnd]
  rfl

/-- What can happen next to the marcher of a cue. -/
inductive Step (c : Cue) : Progress → Progress → Prop
  | note (loc : Option Loc) {k : Mistake} (hk : k.IsSlip) (s : Progress) :
    Step c s (s.note { c with loc } k)
  | remember (slot : Slot) (x : Float) (s : Progress) : Step c s (s.remember c slot x)
  /-- A motion that fits. -/
  | take {m : Motion} (hm : m.Fresh) {s : Progress} (h : m.beats ≤ s.remaining) :
    Step c s (s.take c m)
  /-- A motion of which only the beginning fits. -/
  | cut (loc : Option Loc) {m : Motion} (hm : m.Fresh) {s : Progress} (h₀ : 0 < s.remaining)
    (h : s.remaining < m.beats) :
    Step c s (({ s.note { c with loc } .outOfTime with overflowed := true }).take c
      (m.clip s.remaining))
  | runOut (loc : Option Loc) {s : Progress} (h : s.remaining = 0) :
    Step c s (s.runOut { c with loc })

/-- Any number of steps. -/
abbrev Course (c : Cue) : Progress → Progress → Prop := Relation.ReflTransGen (Step c)

variable {c : Cue} {s t : Progress}

theorem Step.of_loc {loc : Option Loc} (h : Step { c with loc } s t) : Step c s t := by
  cases h with
  | note loc hk => exact .note loc hk s
  | remember slot x => exact .remember slot x s
  | take hm h => exact .take hm h
  | cut loc hm h₀ h => exact .cut loc hm h₀ h
  | runOut loc h => exact .runOut loc h

theorem Course.of_loc {loc : Option Loc} (h : Course { c with loc } s t) : Course c s t :=
  Relation.ReflTransGen.mono (fun _ _ => Step.of_loc) s t h

theorem Course.keeps {P : Progress → Prop} (h : Course c s t)
    (step : ∀ {s t}, Step c s t → P s → P t) (hs : P s) : P t := by
  induction h with
  | refl => exact hs
  | tail _ last ih => exact step last ih

theorem course_append {m : Motion} (hm : m.Fresh) (s : Progress) : Course c s (s.append c m) := by
  refine .single ?_
  unfold append
  split
  · exact .take hm (by assumption)
  · split
    · exact .runOut c.loc (by assumption)
    · exact .cut c.loc hm (by omega) (by omega)

theorem course_noteAll {ks : List Mistake} (h : ∀ k ∈ ks, k.IsSlip) (s : Progress) :
    Course c s (s.noteAll c ks) := by
  unfold noteAll
  induction ks generalizing s with
  | nil => exact .refl
  | cons k ks ih =>
    obtain ⟨hk, hks⟩ := List.forall_mem_cons.1 h
    exact .head (.note c.loc hk s) (ih hks (s.note c k))

theorem course_leg {ks : List Mistake} {m : Motion} (hks : ∀ k ∈ ks, k.IsSlip) (hm : m.Fresh)
    (s : Progress) : Course c s ((s.noteAll c ks).append c m) :=
  (course_noteAll hks s).trans (course_append hm _)

theorem course_appendAll {legs : List (Noted Motion)} (h : (Plan.go legs).Sound) (s : Progress) :
    Course c s (s.appendAll c legs) := by
  induction legs generalizing s with
  | nil => exact .refl
  | cons leg legs ih =>
    obtain ⟨⟨hm, hks⟩, hlegs⟩ := List.forall_mem_cons.1 h
    have hleg := course_leg (c := c) hks hm s
    rw [appendAll]
    split
    · exact hleg
    · exact hleg.trans (ih hlegs _)

end Progress

open Progress

variable {c : Cue}

theorem Circuit.course_reach (v : Vec) (s : Progress) : Course c s (reach c v s).2 := by
  unfold reach
  split
  · exact .refl
  · exact course_leg (toBeats_slips _) (Motion.fresh_line ..) s

theorem Circuit.course_walk (circuit : Circuit) (leg : Fin 4) (strides : Float) (idle : Nat)
    (s : Progress) : Course c s (circuit.walk c leg strides idle s) := by
  fun_induction walk c circuit leg strides idle s with
  | case1 => exact .refl
  | case2 leg strides idle s _ h => exact .single (.runOut c.loc h)
  | case3 => exact .refl
  | case4 leg strides idle s _ _ v _ after =>
    exact (course_reach v s).tail (.note (k := .badCountermarch) c.loc trivial _)
  | case5 leg strides idle s _ _ v _ after _ _ ih => exact (course_reach v s).trans ih
  | case6 leg strides idle s _ _ v _ after _ ih => exact (course_reach v s).trans ih
  | case7 leg strides idle s => exact course_leg (toBeats_slips _) (Motion.fresh_line ..) s

namespace Progress

theorem course_carryOut {p : Plan} (hp : p.Sound) (s : Progress) : Course c s (s.carryOut c p) := by
  cases p with
  | remember slot x => exact .single (.remember slot x s)
  | go legs => exact course_appendAll hp s
  | circuit circuit leg strides => exact circuit.course_walk leg strides 0 s

theorem course_perform (a : Action) (s : Progress) : Course c s (s.perform c a) := by
  obtain ⟨hslips, hsound⟩ := a.plan_sound (s.station c)
  exact (course_noteAll hslips s).trans (course_carryOut hsound _)

theorem run_of_halted {s : Progress} (h : s.halted = true) (p : Program) : s.run c p = s := by
  unfold run
  induction p with
  | nil => rfl
  | cons st p ih => rwa [List.foldl_cons, if_pos h]

theorem run_cons {s : Progress} (h : s.halted = false) (st : Statement) (p : Program) :
    s.run c (st :: p) = (s.perform { c with loc := st.loc } st.action).run c p := by
  unfold run
  rw [List.foldl_cons, if_neg (by simp [h])]

theorem course_run (p : Program) (s : Progress) : Course c s (s.run c p) := by
  unfold run
  induction p generalizing s with
  | nil => exact .refl
  | cons st p ih =>
    rw [List.foldl_cons]
    split
    · exact ih s
    · exact (Course.of_loc (course_perform st.action s)).trans (ih _)

theorem course_runDefault (s : Progress) : Course c s (s.runDefault c) := course_perform _ s

end Progress

theorem Turn.course (t : Turn) (markers : Markers) :
    Course t.cue (Progress.start t.cue.home.position t.beats t.memory markers)
      (t.perform markers) := by
  unfold perform
  split
  · exact course_run _ _
  · exact course_runDefault _

namespace Progress

theorem append_of_le {m : Motion} {s : Progress} (h : m.beats ≤ s.remaining) :
    s.append c m = s.take c m := if_pos h

theorem correct_cases (s : Progress) :
    (s.correct c = s ∧ ∀ target ∈ c.next, s.pos = target) ∨
      ∃ target, c.next = some target ∧ s.pos ≠ target ∧
        s.correct c = (s.note c .wrongPlace).take c (.line s.remaining (target - s.pos)) := by
  unfold correct
  split
  · next target hnext =>
    split
    · next hpos => exact .inl ⟨rfl, by simpa [hnext] using hpos⟩
    · next hpos => exact .inr ⟨target, hnext, hpos, append_of_le (Nat.le_refl _)⟩
  · next hnext => exact .inl ⟨rfl, by simp [hnext]⟩

theorem fill_cases (s : Progress) :
    (s.remaining = 0 ∧ s.fill c = s) ∨
      (0 < s.remaining ∧ s.fill c = (s.note c .timeLeft).take c (.stand s.remaining 0)) := by
  unfold fill
  split
  · next h => exact .inr ⟨h, append_of_le (Nat.le_refl _)⟩
  · next h => exact .inl ⟨by omega, rfl⟩

end Progress
end FieldShow
