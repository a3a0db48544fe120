import FieldShow.Proofs.Course
import FieldShow.Proofs.Legs

/-!
Routines stay small. Four motions are set aside for every beat that is left, so that a lap of a
countermarch can be paid for by the beat that was used before it; then no statement costs more than
four motions, whatever numbers come up in it.
-/

namespace FieldShow

namespace Progress

variable {c : Cue}

/-- The motions so far, and four more for every beat that is left. -/
def weight (s : Progress) : Nat := s.motions.size + 4 * s.remaining

theorem weight_note (k : Mistake) (s : Progress) : (s.note c k).weight = s.weight := rfl

theorem weight_runOut (s : Progress) : (s.runOut c).weight = s.weight := rfl

theorem weight_noteAll (ks : List Mistake) (s : Progress) : (s.noteAll c ks).weight = s.weight := by
  unfold noteAll
  induction ks generalizing s with
  | nil => rfl
  | cons k ks ih => exact ih (s.note c k)

theorem size_append_le (m : Motion) (s : Progress) :
    (s.append c m).motions.size ≤ s.motions.size + 1 := by
  unfold append
  split
  · simp [take, remember]
  · split
    · simp [runOut, note]
    · simp [take, remember, note]

theorem weight_append_le (m : Motion) (s : Progress) :
    (s.append c m).weight + 4 * min m.beats s.remaining ≤ s.weight + 1 := by
  -- one motion at most is added, and each beat that it uses gives back four
  have hsize := size_append_le (c := c) m s
  have hleft := remaining_append c m s
  unfold weight
  omega

theorem weight_leg_le (ks : List Mistake) (m : Motion) (s : Progress) :
    ((s.noteAll c ks).append c m).weight + 4 * min m.beats s.remaining ≤ s.weight + 1 := by
  have := weight_append_le (c := c) m (s.noteAll c ks)
  rwa [weight_noteAll, remaining_noteAll] at this

theorem weight_appendAll_le (legs : List (Noted Motion)) (s : Progress) :
    (s.appendAll c legs).weight ≤ s.weight + legs.length := by
  induction legs generalizing s with
  | nil => exact Nat.le_refl _
  | cons leg legs ih =>
    have hleg := weight_leg_le (c := c) leg.mistakes leg.value s
    rw [appendAll, List.length_cons]
    split
    · omega
    · have := ih ((s.noteAll c leg.mistakes).append c leg.value)
      omega

end Progress

open Progress

variable {c : Cue}

theorem Circuit.weight_reach_le (v : Vec) (s : Progress) :
    (reach c v s).2.weight + 4 * min (reach c v s).1 s.remaining ≤ s.weight + 1 := by
  unfold reach
  split
  · exact Nat.add_le_add_left (by omega) s.weight
  · exact weight_leg_le _ (.line _ v) s

/-- The legs since a beat was last used are paid for by that beat, and those before the first beat
by the four motions that a countermarch may cost. -/
theorem Circuit.weight_walk_le (circuit : Circuit) (leg : Fin 4) (strides : Float) {idle : Nat}
    (h : idle < 4) (s : Progress) :
    (circuit.walk c leg strides idle s).weight + idle ≤ s.weight + 4 := by
  fun_induction walk c circuit leg strides idle s with
  | case1 => omega
  | case2 leg strides idle s =>
    rw [weight_runOut]
    omega
  | case3 => omega
  | case4 leg strides idle s _ _ v _ after =>
    have hreach := weight_reach_le (c := c) v s
    rw [show reach c v s = after from rfl] at hreach
    rw [weight_note]
    omega
  | case5 leg strides idle s _ _ v _ after _ _ ih =>
    have hreach := weight_reach_le (c := c) v s
    rw [show reach c v s = after from rfl] at hreach
    have := ih (by omega)
    omega
  | case6 leg strides idle s _ hleft v _ after hused ih =>
    have hreach := weight_reach_le (c := c) v s
    rw [show reach c v s = after from rfl] at hreach
    have := ih (by omega)
    omega
  | case7 leg strides idle s _ _ v _ beats =>
    have := weight_leg_le (c := c) beats.mistakes
      (.line beats.value (Vec.march circuit.headings[leg] strides)) s
    omega

namespace Progress

theorem weight_perform_le (a : Action) (s : Progress) : (s.perform c a).weight ≤ s.weight + 4 := by
  have hplan := a.plan_plans (s.station c)
  rw [← weight_noteAll (c := c) (a.plan (s.station c)).mistakes s, perform]
  cases hvalue : (a.plan (s.station c)).value with
  | remember slot x => exact Nat.le_add_right ..
  | go legs =>
    rw [hvalue] at hplan
    have hlegs := hplan.length
    have := weight_appendAll_le (c := c) legs (s.noteAll c (a.plan (s.station c)).mistakes)
    simp only [carryOut]
    omega
  | circuit circuit leg strides =>
    have hidle : 0 < 4 := by decide
    exact circuit.weight_walk_le leg strides hidle _

theorem weight_run_le (p : Program) (s : Progress) :
    (s.run c p).weight ≤ s.weight + 4 * p.length := by
  unfold run
  induction p generalizing s with
  | nil => exact Nat.le_refl _
  | cons st p ih =>
    rw [List.foldl_cons, List.length_cons]
    split
    · have := ih s
      omega
    · have hst := weight_perform_le (c := { c with loc := st.loc }) st.action s
      have := ih (s.perform { c with loc := st.loc } st.action)
      omega

theorem weight_runDefault_le (s : Progress) : (s.runDefault c).weight ≤ s.weight + 4 :=
  weight_perform_le _ s

theorem length_finish_le (s : Progress) :
    (s.finish c).routine.motions.length ≤ s.motions.size + 1 := by
  -- a motion that corrects the place takes all the beats left, so none is needed to fill them
  change ((s.correct c).fill c).motions.toList.length ≤ _
  obtain ⟨hcorrect, -⟩ | ⟨target, -, -, hcorrect⟩ := s.correct_cases (c := c) <;>
    obtain ⟨hspent, hfill⟩ | ⟨hleft, hfill⟩ := (s.correct c).fill_cases (c := c) <;>
    rw [hfill]
  · simp [hcorrect]
  · simp [hcorrect, motions_take, note]
  · simp [hcorrect, motions_take, note]
  · have : (s.correct c).remaining = 0 := by
      rw [hcorrect]
      exact Nat.sub_self _
    omega

end Progress

theorem Turn.weight_perform_le (t : Turn) (markers : Markers) :
    (t.perform markers).weight ≤ 4 * (t.beats + max 1 (t.program.getD []).length) := by
  have hstart :
      (Progress.start t.cue.home.position t.beats t.memory markers).weight = 4 * t.beats :=
    Nat.zero_add _
  obtain ⟨cue, program, beats, memory⟩ := t
  match program with
  | some (st :: rest) =>
    have := weight_run_le (c := cue) (st :: rest) (.start cue.home.position beats memory markers)
    simp only [perform, Option.getD_some, List.length_cons] at *
    omega
  | some [] | none =>
    have := weight_runDefault_le (c := cue) (.start cue.home.position beats memory markers)
    simp only [perform, Option.getD_some, Option.getD_none, List.length_nil] at *
    omega

theorem Turn.length_outcome_le (t : Turn) (markers : Markers) :
    (t.outcome markers).routine.motions.length ≤
      4 * (t.beats + max 1 (t.program.getD []).length) + 1 := by
  have hlength := length_finish_le (c := t.cue) (t.perform markers)
  have hweight := t.weight_perform_le markers
  have hsize : (t.perform markers).motions.size ≤ (t.perform markers).weight := Nat.le_add_right ..
  unfold outcome
  omega

/-- In a valid show every marcher has a routine on every sheet, with no more than four motions for
each beat and each statement and one to make up for them; and a countermarch, whatever its corners,
directions and strides are, adds no more than four for each beat that is left and four besides. -/
theorem Show.outcome_length_le {s : Show} (h : s.Valid) {index point : Nat} {sheet : Sheet}
    (hsheet : s.sheets[index]? = some sheet) (hpoint : point < s.size) (symbol : Symbol) :
    (∃ o, s.outcome index point symbol = .ok o ∧ o.routine.motions.length ≤
      4 * (sheet.beats.toNat + max 1 ((sheet.book.get? symbol).getD []).length) + 1) ∧
    ∀ (c : Cue) (circuit : Circuit) (leg : Fin 4) (strides : Float) (p : Progress),
      (circuit.walk c leg strides 0 p).motions.size ≤ p.motions.size + 4 * (p.remaining + 1) := by
  constructor
  · obtain ⟨home, hhome⟩ := h.exists_placement hsheet hpoint
    have houtcome := h.outcome_eq hsheet hhome symbol
    exact ⟨_, houtcome, Turn.length_outcome_le _ .empty⟩
  · intro c circuit leg strides p
    have hidle : 0 < 4 := by decide
    have := circuit.weight_walk_le (c := c) leg strides hidle p
    unfold weight at this
    omega

/-- A marcher goes round a loop whose legs are too short for a beat, for ever if it could. -/
def Show.whirl : Show :=
  let book := Book.empty.insert .plain
    [⟨.countermarch .start (.ref 1) (.number 0.0625) (.constant .north) (.constant .east)
      (.number (1 / 0)), none⟩]
  ⟨[⟨"whirl", 8, true, [⟨⟨0, 0⟩, #v[some ⟨2, 0⟩, none, none], .plain⟩], book⟩]⟩

theorem Show.outcome_length_le_whirl :
    ∃ o, Show.whirl.outcome 0 0 .plain = .ok o ∧ o.routine.motions.length ≤ 37 := by
  have hvalid : Show.whirl.Valid := by decide +kernel
  have hpoint : 0 < Show.whirl.size := by decide
  have hsheet : Show.whirl.sheets[0]? = some Show.whirl.sheets[0] := rfl
  exact (Show.outcome_length_le hvalid hsheet hpoint .plain).1

end FieldShow
