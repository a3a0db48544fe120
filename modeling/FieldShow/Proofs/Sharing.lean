import FieldShow.Proofs.Turns
import FieldShow.Proofs.Registrations

/-!
Marchers that share one memory and one table of mistakes. On its turn a marcher reads and writes
nothing in the memory but its own variables, and only adds to the table, so that it does what it
would do alone.
-/

namespace FieldShow

/-- The same state of a marcher alone and amid others, who had left a memory and markers. -/
structure Progress.Amid (point : Nat) (memory : Memory) (markers : Markers)
    (alone amid : Progress) : Prop where
  pos : amid.pos = alone.pos
  remaining : amid.remaining = alone.remaining
  halted : amid.halted = alone.halted
  overflowed : amid.overflowed = alone.overflowed
  motions : amid.motions = alone.motions
  own : amid.memory.get? point = alone.memory.get? point
  others : ∀ q, q ≠ point → amid.memory.get? q = memory.get? q
  markers : amid.markers = markers.merge alone.markers

variable {c : Cue} {memory : Memory} {markers : Markers} {s t : Progress}

namespace Progress

theorem Amid.station (h : Amid c.point memory markers s t) : t.station c = s.station c := by
  simp only [Progress.station, h.pos, h.remaining, h.own]

theorem Amid.note (h : Amid c.point memory markers s t) (k : Mistake) :
    Amid c.point memory markers (s.note c k) (t.note c k) :=
  { h with markers := by simp only [Progress.note, h.markers, Markers.merge_register] }

theorem Amid.noteAll (h : Amid c.point memory markers s t) (ks : List Mistake) :
    Amid c.point memory markers (s.noteAll c ks) (t.noteAll c ks) :=
  List.foldl_rel h fun k _ _ _ h => h.note k

theorem Amid.remember (h : Amid c.point memory markers s t) (slot : Slot) (x : Float) :
    Amid c.point memory markers (s.remember c slot x) (t.remember c slot x) := by
  refine { h with own := ?_, others := fun q hq => ?_ }
  · funext other
    by_cases hslot : slot = other
    · subst hslot
      simp only [Progress.remember, Memory.get?_set_self]
    · have hne : ¬(c.point = c.point ∧ slot = other) := fun h => hslot h.2
      simp only [Progress.remember, Memory.get?_set_of_ne hne, h.own]
  · funext other
    have hne : ¬(c.point = q ∧ slot = other) := fun h => hq h.1.symm
    simp only [Progress.remember, Memory.get?_set_of_ne hne, h.others q hq]

theorem Amid.take (h : Amid c.point memory markers s t) (m : Motion) :
    Amid c.point memory markers (s.take c m) (t.take c m) := by
  unfold Progress.take
  rw [h.pos]
  have hremembered := (h.remember .dof (Walk.mk m s.pos).toEnd.motion.course).remember .doh
    (Walk.mk m s.pos).toEnd.motion.heading
  exact { hremembered with
    pos := rfl
    remaining := congrArg (· - m.beats) hremembered.remaining
    motions := by simp only [hremembered.motions] }

theorem Amid.runOut (h : Amid c.point memory markers s t) :
    Amid c.point memory markers (s.runOut c) (t.runOut c) :=
  { h.note .outOfTime with overflowed := rfl, halted := rfl }

theorem Amid.append (h : Amid c.point memory markers s t) (m : Motion) :
    Amid c.point memory markers (s.append c m) (t.append c m) := by
  have hcut : Amid c.point memory markers { s.note c .outOfTime with overflowed := true }
      { t.note c .outOfTime with overflowed := true } :=
    { h.note .outOfTime with overflowed := rfl }
  unfold Progress.append
  rw [h.remaining]
  split
  · exact h.take m
  · split
    · exact h.runOut
    · exact hcut.take _

theorem Amid.appendAll (h : Amid c.point memory markers s t) (legs : List (Noted Motion)) :
    Amid c.point memory markers (s.appendAll c legs) (t.appendAll c legs) := by
  induction legs generalizing s t with
  | nil => exact h
  | cons leg legs ih =>
    have hleg := (h.noteAll (c := c) leg.mistakes).append leg.value
    rw [Progress.appendAll, Progress.appendAll, h.remaining]
    split
    · exact hleg
    · exact ih hleg

end Progress

open Progress

theorem Circuit.amid_reach (h : Amid c.point memory markers s t) (v : Vec) :
    (reach c v t).1 = (reach c v s).1 ∧
      Amid c.point memory markers (reach c v s).2 (reach c v t).2 := by
  unfold reach
  split
  · exact ⟨rfl, h⟩
  · exact ⟨rfl, (h.noteAll _).append _⟩

theorem Circuit.amid_walk (circuit : Circuit) (leg : Fin 4) (strides : Float) (idle : Nat)
    (h : Amid c.point memory markers s t) :
    Amid c.point memory markers (circuit.walk c leg strides idle s)
      (circuit.walk c leg strides idle t) := by
  revert t
  -- both walk the same legs, since their places and the beats left agree at every corner
  fun_induction walk c circuit leg strides idle s <;> intro t h
  case case1 hdone =>
    rwa [walk, if_pos hdone]
  case case2 hmore hout hlong =>
    rw [walk, if_neg hmore, h.remaining, if_pos hout, if_pos hlong]
    exact h.runOut
  case case3 hmore hout hshort =>
    rwa [walk, if_neg hmore, h.remaining, if_pos hout, if_neg hshort]
  case case4 hmore hleft v hleg after hidle hlap =>
    obtain ⟨hbeats, hafter⟩ := amid_reach h v
    rw [walk, if_neg hmore, h.remaining, if_neg hleft, h.pos, if_pos hleg]
    rw [if_pos (hbeats.trans hidle), if_pos hlap]
    exact hafter.note .badCountermarch
  case case5 leg strides idle s hmore hleft v hleg after hidle hlap ih =>
    obtain ⟨hbeats, hafter⟩ := amid_reach h v
    rw [walk.eq_def c circuit leg strides idle t, if_neg hmore, h.remaining, if_neg hleft, h.pos,
      if_pos hleg]
    rw [if_pos (hbeats.trans hidle), if_neg hlap]
    exact ih hafter
  case case6 leg strides idle s hmore hleft v hleg after hused ih =>
    obtain ⟨hbeats, hafter⟩ := amid_reach h v
    rw [walk.eq_def c circuit leg strides idle t, if_neg hmore, h.remaining, if_neg hleft, h.pos,
      if_pos hleg]
    rw [if_neg fun h => hused (hbeats.symm.trans h)]
    exact ih hafter
  case case7 hmore hleft v hleg beats =>
    rw [walk, if_neg hmore, h.remaining, if_neg hleft, h.pos, if_neg hleg]
    exact (h.noteAll beats.mistakes).append _

namespace Progress

theorem Amid.carryOut (h : Amid c.point memory markers s t) (p : Plan) :
    Amid c.point memory markers (s.carryOut c p) (t.carryOut c p) := by
  cases p with
  | remember slot x => exact h.remember slot x
  | go legs => exact h.appendAll legs
  | circuit circuit leg strides => exact circuit.amid_walk leg strides 0 h

theorem Amid.perform (h : Amid c.point memory markers s t) (a : Action) :
    Amid c.point memory markers (s.perform c a) (t.perform c a) := by
  unfold Progress.perform
  -- the plan is drawn up from what the marcher sees, so it is one and the same plan
  rw [h.station]
  exact (h.noteAll _).carryOut _

theorem Amid.run (h : Amid c.point memory markers s t) (p : Program) :
    Amid c.point memory markers (s.run c p) (t.run c p) := by
  refine List.foldl_rel h fun st _ s t h => ?_
  rw [h.halted]
  split
  · exact h
  · exact Amid.perform (c := { c with loc := st.loc }) h st.action

theorem Amid.runDefault (h : Amid c.point memory markers s t) :
    Amid c.point memory markers (s.runDefault c) (t.runDefault c) := by
  unfold Progress.runDefault
  rw [h.remaining]
  exact h.perform _

theorem Amid.correct (h : Amid c.point memory markers s t) :
    Amid c.point memory markers (s.correct c) (t.correct c) := by
  unfold Progress.correct
  rw [h.remaining, h.pos]
  split
  · split
    · exact h
    · exact (h.note .wrongPlace).append _
  · exact h

theorem Amid.fill (h : Amid c.point memory markers s t) :
    Amid c.point memory markers (s.fill c) (t.fill c) := by
  unfold Progress.fill
  rw [h.remaining]
  split
  · exact (h.note .timeLeft).append _
  · exact h

end Progress

structure Outcome.Amid (point : Nat) (memory : Memory) (markers : Markers)
    (alone amid : Outcome) : Prop where
  routine : amid.routine = alone.routine
  own : amid.memory.get? point = alone.memory.get? point
  others : ∀ q, q ≠ point → amid.memory.get? q = memory.get? q
  markers : amid.markers = markers.merge alone.markers

theorem Progress.Amid.finish (h : Amid c.point memory markers s t) :
    Outcome.Amid c.point memory markers (s.finish c) (t.finish c) := by
  have hcorrected := h.correct
  have hfilled := hcorrected.fill
  refine ⟨?_, hfilled.own, hfilled.others, hfilled.markers⟩
  simp only [Progress.finish, hfilled.motions, hfilled.overflowed, hcorrected.remaining]

/-- With a memory in which its own variables are as they were, a marcher does what it does alone.
It leaves the variables of the others as they are, and its markers are merged into theirs. -/
theorem Turn.outcome_amid (turn : Turn) (markers : Markers)
    (hown : memory.get? turn.cue.point = turn.memory.get? turn.cue.point) :
    Outcome.Amid turn.cue.point memory markers (turn.outcome .empty)
      ({ turn with memory := memory }.outcome markers) := by
  have hstart : Amid turn.cue.point memory markers
      (.start turn.cue.home.position turn.beats turn.memory .empty)
      (.start turn.cue.home.position turn.beats memory markers) :=
    ⟨rfl, rfl, rfl, rfl, rfl, hown, fun _ _ => rfl, (markers.merge_empty).symm⟩
  refine Amid.finish ?_
  obtain ⟨cue, program, beats, own⟩ := turn
  match program with
  | some (st :: rest) => exact hstart.run (st :: rest)
  | some [] | none => exact hstart.runDefault

end FieldShow
