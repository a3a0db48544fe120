import FieldShow.Proofs.Diagnostics
import FieldShow.Proofs.Legs
import FieldShow.Proofs.Reading

/-!
What a marcher remembers. Its variables hold what the latest event of its history told them, from
sheet to sheet: the directions of a motion at its end, or a value that was assigned. Motions that
were dropped are no events, but those made up at the end of a sheet are.
-/

namespace FieldShow

/-- What can change the variables of a marcher. -/
inductive Event where
  | moved (m : Motion)
  | assigned (slot : Slot) (x : Float)
deriving DecidableEq, Repr

namespace Event

def told? (slot : Slot) : Event → Option Float
  | moved m =>
    match slot with
    | .dof => some m.over.course
    | .doh => some m.over.heading
    | _ => none
  | assigned s x => if s = slot then some x else none

def latest? (slot : Slot) (events : List Event) : Option Float :=
  events.reverse.findSome? (told? slot)

def motion? : Event → Option Motion
  | moved m => some m
  | assigned .. => none

@[simp] theorem latest?_nil (slot : Slot) : latest? slot [] = none := rfl

theorem latest?_append (slot : Slot) (es fs : List Event) :
    latest? slot (es ++ fs) = (latest? slot fs).or (latest? slot es) := by
  rw [latest?, List.reverse_append, List.findSome?_append]
  rfl

@[simp] theorem latest?_singleton (slot : Slot) (e : Event) : latest? slot [e] = e.told? slot := by
  simp [latest?]

@[simp] theorem filterMap_motion?_map (ms : List Motion) :
    (ms.map moved).filterMap motion? = ms := by
  simp [List.filterMap_map, Function.comp_def, motion?]

end Event

open Event

/-! ## Histories -/

namespace Progress

/-- The motions that a later state has and an earlier one has not. -/
def added (s t : Progress) : List Event := (t.motions.toList.drop s.motions.size).map .moved

def events (c : Cue) (a : Action) (s : Progress) : List Event :=
  match a with
  | .assign slot value => [.assigned slot (value.eval (s.station c)).value]
  | _ => s.added (s.perform c a)

def history (c : Cue) : Program → Progress → List Event
  | [], _ => []
  | st :: rest, s =>
    if s.halted then []
    else
      s.events { c with loc := st.loc } st.action ++
        history c rest (s.perform { c with loc := st.loc } st.action)

end Progress

namespace Turn

/-- What happens to a marcher on a sheet, the motions that make up for its program included. -/
def history (t : Turn) : List Event :=
  let performed := t.perform .empty
  (match t.program with
    | some (st :: rest) => t.start.history t.cue (st :: rest)
    | _ => t.start.added performed) ++
    performed.added ((performed.correct t.cue).fill t.cue)

/-- A statement is carried out after those before it, in this state. -/
structure Reaches (t : Turn) (before : Program) (st : Statement) (here : Progress) : Prop where
  program : ∃ rest, t.program = some (before ++ st :: rest)
  state : here = t.start.run t.cue before
  goes : here.halted = false

end Turn

namespace Show

/-- What happened to a marcher on the performed sheets before the `k`-th. -/
def history (s : Show) (point k : Nat) : List Event :=
  ((s.turns point .empty s.performed).take k).flatMap Turn.history

end Show

namespace Progress

variable {c : Cue} {point : Nat} {s t u : Progress}

/-- Events lead from one state to another: their motions are those that were added, and the
variables hold what was told last. -/
structure Follows (point : Nat) (s : Progress) (es : List Event) (t : Progress) : Prop where
  motions : t.motions.toList = s.motions.toList ++ es.filterMap motion?
  memory : ∀ slot, t.memory.get? point slot = (latest? slot es).or (s.memory.get? point slot)

theorem follows_nil (hmotions : t.motions = s.motions) (hmemory : t.memory = s.memory) :
    Follows point s [] t := ⟨by simp [hmotions], by simp [hmemory]⟩

theorem Follows.trans {es fs : List Event} (h : Follows point s es t) (h' : Follows point t fs u) :
    Follows point s (es ++ fs) u where
  motions := by rw [h'.motions, h.motions, List.filterMap_append, List.append_assoc]
  memory slot := by rw [h'.memory, h.memory, latest?_append, Option.or_assoc]

theorem Follows.added {ms : List Motion} (h : Follows point s (ms.map .moved) t) :
    s.added t = ms.map .moved := by
  have hmotions := h.motions
  rw [filterMap_motion?_map] at hmotions
  rw [Progress.added, hmotions, ← Array.length_toList, List.drop_left]

/-- Nothing but motions leads from one state to another, and no variable is missed on the way. -/
structure Moves (point : Nat) (s t : Progress) : Prop where
  follows : ∃ ms : List Motion, Follows point s (ms.map .moved) t
  points : t.markers.points .unsetSlot = s.markers.points .unsetSlot

theorem Moves.added (h : Moves point s t) : Follows point s (s.added t) t := by
  obtain ⟨ms, hms⟩ := h.follows
  rwa [hms.added]

theorem moves_refl (s : Progress) : Moves point s s := ⟨⟨[], follows_nil rfl rfl⟩, rfl⟩

theorem Moves.trans (h : Moves point s t) (h' : Moves point t u) : Moves point s u where
  follows := by
    obtain ⟨ms, hms⟩ := h.follows
    obtain ⟨ns, hns⟩ := h'.follows
    refine ⟨ms ++ ns, ?_⟩
    rw [List.map_append]
    exact hms.trans hns
  points := h'.points.trans h.points

theorem moves_noted {k : Mistake} (hk : .unsetSlot ≠ k) (hmotions : t.motions = s.motions)
    (hmemory : t.memory = s.memory) (hmarkers : t.markers = (s.note c k).markers) :
    Moves c.point s t where
  follows := ⟨[], follows_nil hmotions hmemory⟩
  points := by
    rw [hmarkers]
    exact Markers.points_register_of_ne hk ..

theorem moves_noteAll {ks : List Mistake} (h : ∀ k ∈ ks, k.IsCount) (s : Progress) :
    Moves c.point s (s.noteAll c ks) := by
  unfold noteAll
  induction ks generalizing s with
  | nil => exact moves_refl s
  | cons k ks ih =>
    obtain ⟨hk, hks⟩ := List.forall_mem_cons.1 h
    have hne : .unsetSlot ≠ k := by
      rintro rfl
      exact hk
    exact (moves_noted (s := s) (t := s.note c k) hne rfl rfl rfl).trans (ih hks (s.note c k))

theorem moves_take (m : Motion) (s : Progress) : Moves c.point s (s.take c m) := by
  -- the directions are read at the last beat, and the cursor goes back only afterwards
  refine ⟨⟨[m.rewind], by simp [motions_take, motion?], fun slot => ?_⟩, rfl⟩
  simp only [take, remember, Walk.motion_toEnd]
  cases slot with
  | dof =>
    rw [Memory.get?_set_of_ne (by simp), Memory.get?_set_self]
    rfl
  | doh => exact Memory.get?_set_self ..
  | _ =>
    rw [Memory.get?_set_of_ne (by simp), Memory.get?_set_of_ne (by simp)]
    rfl

theorem moves_append (m : Motion) (s : Progress) : Moves c.point s (s.append c m) := by
  unfold append
  split
  · exact moves_take m s
  · split
    · exact moves_noted (k := .outOfTime) (by decide) rfl rfl rfl
    · have hcut : Moves c.point s { s.note c .outOfTime with overflowed := true } :=
        moves_noted (k := .outOfTime) (by decide) rfl rfl rfl
      exact hcut.trans (moves_take ..)

theorem moves_leg {ks : List Mistake} (h : ∀ k ∈ ks, k.IsCount) (m : Motion) (s : Progress) :
    Moves c.point s ((s.noteAll c ks).append c m) := (moves_noteAll h s).trans (moves_append m _)

theorem moves_appendAll {legs : List (Noted Motion)}
    (h : ∀ leg ∈ legs, ∀ k ∈ leg.mistakes, k.IsCount) (s : Progress) :
    Moves c.point s (s.appendAll c legs) := by
  induction legs generalizing s with
  | nil => exact moves_refl s
  | cons leg legs ih =>
    obtain ⟨hleg, hlegs⟩ := List.forall_mem_cons.1 h
    have hmoves := moves_leg (c := c) hleg leg.value s
    rw [appendAll]
    split
    · exact hmoves
    · exact hmoves.trans (ih hlegs _)

end Progress

open Progress

variable {c : Cue}

theorem Circuit.moves_reach (v : Vec) (s : Progress) : Moves c.point s (reach c v s).2 := by
  unfold reach
  split
  · exact moves_refl s
  · exact moves_leg (toBeats_counts _) _ s

theorem Circuit.moves_walk (circuit : Circuit) (leg : Fin 4) (strides : Float) (idle : Nat)
    (s : Progress) : Moves c.point s (circuit.walk c leg strides idle s) := by
  fun_induction walk c circuit leg strides idle s with
  | case1 | case3 => exact moves_refl _
  | case2 leg strides idle s => exact moves_noted (k := .outOfTime) (by decide) rfl rfl rfl
  | case4 leg strides idle s _ _ v _ after =>
    have hgiven : Moves c.point after.2 (after.2.note c .badCountermarch) :=
      moves_noted (by decide) rfl rfl rfl
    exact (moves_reach v s).trans hgiven
  | case5 leg strides idle s _ _ v _ after _ _ ih => exact (moves_reach v s).trans ih
  | case6 leg strides idle s _ _ v _ after _ ih => exact (moves_reach v s).trans ih
  | case7 leg strides idle s => exact moves_leg (toBeats_counts _) _ s

namespace Progress

variable {s t : Progress} {a : Action}

/-! ## Statements -/

theorem follows_noteAll (ks : List Mistake) (s : Progress) :
    Follows c.point s [] (s.noteAll c ks) := by
  unfold noteAll
  induction ks generalizing s with
  | nil => exact follows_nil rfl rfl
  | cons k ks ih => exact (follows_nil (s := s) (t := s.note c k) rfl rfl).trans (ih (s.note c k))

theorem follows_remember (slot : Slot) (x : Float) (s : Progress) :
    Follows c.point s [.assigned slot x] (s.remember c slot x) where
  motions := (List.append_nil _).symm
  memory other := by
    by_cases h : slot = other
    · subst h
      simp [remember, Memory.get?_set_self, told?]
    · simp [remember, Memory.get?_set_of_ne, told?, h]

theorem moves_carryOut {p : Plan} (hp : a.Plans p) (ha : ∀ slot value, a ≠ .assign slot value)
    (s : Progress) : Moves c.point s (s.carryOut c p) := by
  cases p with
  | remember slot x =>
    obtain ⟨value, rfl⟩ := hp
    exact absurd rfl (ha slot value)
  | go legs => exact moves_appendAll hp.counts s
  | circuit circuit leg strides => exact circuit.moves_walk leg strides 0 s

/-- A statement leaves its events behind, and a mark if it missed a variable. -/
structure Recalls (c : Cue) (a : Action) (s t : Progress) : Prop where
  follows : Follows c.point s (s.events c a) t
  points : ∀ p, p ∈ t.markers.points .unsetSlot ↔
    p ∈ s.markers.points .unsetSlot ∨ p = c.point ∧ (a.plan (s.station c)).Unset

theorem recalls_perform (a : Action) (s : Progress) : Recalls c a s (s.perform c a) := by
  have hnoted := follows_noteAll (c := c) (a.plan (s.station c)).mistakes s
  have hpoints (p : Nat) := mem_points_noteAll c (a.plan (s.station c)).mistakes s .unsetSlot p
  -- an assignment is an event of its own, and any other statement has no events but motions
  by_cases hassign : ∃ slot value, a = .assign slot value
  · obtain ⟨slot, value, rfl⟩ := hassign
    exact ⟨hnoted.trans (follows_remember slot (value.eval (s.station c)).value _), hpoints⟩
  · have ha : ∀ slot value, a ≠ .assign slot value := fun slot value h => hassign ⟨slot, value, h⟩
    have hevents : s.events c a = s.added (s.perform c a) := by
      cases a with
      | assign slot value => exact absurd rfl (ha slot value)
      | _ => rfl
    have hcarried := moves_carryOut (c := c) (a.plan_plans (s.station c)) ha
      (s.noteAll c (a.plan (s.station c)).mistakes)
    obtain ⟨ms, hms⟩ := hcarried.follows
    have hfollows : Follows c.point s (ms.map .moved) (s.perform c a) := hnoted.trans hms
    refine ⟨by rwa [hevents, hfollows.added], fun p => ?_⟩
    rw [perform, hcarried.points]
    exact hpoints p

theorem follows_run (p : Program) (s : Progress) :
    Follows c.point s (s.history c p) (s.run c p) := by
  induction p generalizing s with
  | nil => exact follows_nil rfl rfl
  | cons st p ih =>
    cases h : s.halted with
    | true =>
      rw [run_of_halted h, history, if_pos h]
      exact follows_nil rfl rfl
    | false =>
      rw [run_cons h, history, if_neg (by simp [h])]
      exact (recalls_perform (c := { c with loc := st.loc }) st.action s).follows.trans (ih _)

theorem mem_points_run {q : Nat} (p : Program) (s : Progress) :
    q ∈ (s.run c p).markers.points .unsetSlot ↔ q ∈ s.markers.points .unsetSlot ∨
      q = c.point ∧ ∃ before st rest, p = before ++ st :: rest ∧
        (s.run c before).halted = false ∧
        (st.action.plan ((s.run c before).station c)).Unset := by
  induction p generalizing s with
  | nil => simp [run]
  | cons st p ih =>
    cases h : s.halted with
    | true => simp [run_of_halted h, h]
    | false =>
      rw [run_cons h, ih, (recalls_perform (c := { c with loc := st.loc }) st.action s).points,
        or_assoc, ← and_or_left]
      -- a statement that missed a variable is the first one or one after it
      refine or_congr_right (and_congr_right fun _ => ⟨?_, ?_⟩)
      · rintro (hfirst | ⟨before, st', rest, rfl, hgoes, hunset⟩)
        · exact ⟨[], st, p, rfl, h, hfirst⟩
        · rw [← run_cons h] at hgoes hunset
          exact ⟨st :: before, st', rest, rfl, hgoes, hunset⟩
      · rintro ⟨before, st', rest, hsplit, hgoes, hunset⟩
        cases before with
        | nil =>
          obtain ⟨rfl, rfl⟩ := List.cons.inj hsplit
          exact .inl hunset
        | cons first before =>
          obtain ⟨rfl, rfl⟩ := List.cons.inj hsplit
          rw [run_cons h] at hgoes hunset
          exact .inr ⟨before, st', rest, rfl, hgoes, hunset⟩

theorem moves_runDefault (s : Progress) : Moves c.point s (s.runDefault c) := by
  obtain ⟨hfollows, hpoints⟩ := recalls_perform (c := c) (c.defaultAction s.remaining) s
  have hreads : (c.defaultAction s.remaining).reads (s.station c) = [] := by
    unfold Cue.defaultAction
    split <;> rfl
  have hmoves : s.events c (c.defaultAction s.remaining) = s.added (s.runDefault c) := by
    unfold runDefault Cue.defaultAction
    split <;> rfl
  rw [hmoves] at hfollows
  simp only [Action.unset_plan, hreads, Station.lacks_nil, and_false, or_false] at hpoints
  exact ⟨⟨_, hfollows⟩, PointSet.eq_of_mem_iff hpoints⟩

theorem moves_correct (s : Progress) : Moves c.point s (s.correct c) := by
  have hnoted : Moves c.point s (s.note c .wrongPlace) := moves_noted (by decide) rfl rfl rfl
  unfold correct
  split
  · split
    · exact moves_refl s
    · exact hnoted.trans (moves_append ..)
  · exact moves_refl s

theorem moves_fill (s : Progress) : Moves c.point s (s.fill c) := by
  have hnoted : Moves c.point s (s.note c .timeLeft) := moves_noted (by decide) rfl rfl rfl
  unfold fill
  split
  · exact hnoted.trans (moves_append ..)
  · exact moves_refl s

end Progress

/-! ## Turns -/

namespace Turn

variable (t : Turn)

theorem moves_finish : Moves t.cue.point (t.perform .empty)
    (((t.perform .empty).correct t.cue).fill t.cue) := (moves_correct _).trans (moves_fill _)

theorem follows_history : Follows t.cue.point t.start t.history
    (((t.perform .empty).correct t.cue).fill t.cue) := by
  refine Follows.trans ?_ t.moves_finish.added
  obtain ⟨cue, program, beats, memory⟩ := t
  match program with
  | some (st :: rest) => exact follows_run (st :: rest) _
  | some [] | none => exact (moves_runDefault (c := cue) _).added

theorem motions_outcome : (t.outcome .empty).routine.motions = t.history.filterMap motion? := by
  have hmotions := t.follows_history.motions
  rwa [show t.start.motions.toList = [] from rfl, List.nil_append] at hmotions

theorem memory_outcome (slot : Slot) : (t.outcome .empty).memory.get? t.cue.point slot =
    (latest? slot t.history).or (t.memory.get? t.cue.point slot) := t.follows_history.memory slot

theorem mem_unsetSlot {p : Nat} : p ∈ (t.outcome .empty).markers.points .unsetSlot ↔
    p = t.cue.point ∧ ∃ before st here, t.Reaches before st here ∧
      (st.action.plan (here.station t.cue)).Unset := by
  change p ∈ (((t.perform .empty).correct t.cue).fill t.cue).markers.points .unsetSlot ↔ _
  rw [t.moves_finish.points]
  obtain ⟨cue, program, beats, memory⟩ := t
  match program with
  | some (st :: rest) =>
    refine (mem_points_run (st :: rest) _).trans ?_
    simp only [Progress.start, Markers.not_mem_points_empty, false_or]
    refine and_congr_right fun _ => ⟨?_, ?_⟩
    · rintro ⟨before, st', rest', hsplit, hgoes, hunset⟩
      exact ⟨before, st', _, ⟨⟨rest', congrArg some hsplit⟩, rfl, hgoes⟩, hunset⟩
    · rintro ⟨before, st', _, ⟨⟨rest', hsplit⟩, rfl, hgoes⟩, hunset⟩
      exact ⟨before, st', rest', Option.some.inj hsplit, hgoes, hunset⟩
  | some [] | none =>
    have hpoints :=
      (moves_runDefault (c := cue) (.start cue.home.position beats memory .empty)).points
    refine iff_of_false (fun hmem => ?_) ?_
    · have hstart : p ∈ Markers.empty.points .unsetSlot := by
        rw [show Markers.empty.points .unsetSlot = _ from hpoints.symm]
        exact hmem
      exact Markers.not_mem_points_empty hstart
    · rintro ⟨-, before, st, here, ⟨⟨rest, hsplit⟩, -, -⟩, -⟩
      simp at hsplit

theorem Reaches.remembered {t : Turn} {before : Program} {st : Statement} {here : Progress}
    (h : t.Reaches before st here) (slot : Slot) :
    here.memory.get? t.cue.point slot =
      (latest? slot (t.start.history t.cue before)).or (t.memory.get? t.cue.point slot) := by
  rw [h.state]
  exact (follows_run before t.start).memory slot

end Turn

namespace Show

variable {s : Show} {point : Nat}

theorem point_turns {memory : Memory} {sheets : List (Nat × Sheet)} {t : Turn}
    (h : t ∈ s.turns point memory sheets) : t.cue.point = point := by
  induction sheets generalizing memory with
  | nil => cases h
  | cons p sheets ih =>
    rw [turns] at h
    split at h
    · cases h
    · obtain rfl | h := List.mem_cons.1 h
      · rfl
      · exact ih h

theorem memory_turn? {k : Nat} {t : Turn} (h : s.turn? point k = some t) (slot : Slot) :
    t.memory.get? point slot = latest? slot (s.history point k) := by
  induction k generalizing t with
  | zero =>
    rw [memory_turns_zero h]
    rfl
  | succ k ih =>
    obtain ⟨previous, hprevious⟩ : ∃ previous, s.turn? point k = some previous := by
      have := (List.getElem?_eq_some_iff.1 h).1
      exact ⟨_, List.getElem?_eq_getElem (by omega)⟩
    have hpoint := point_turns (List.mem_of_getElem? hprevious)
    have hmemory := previous.memory_outcome slot
    rw [hpoint, ih hprevious] at hmemory
    -- the sheet before adds its own history, and its outcome hands that on
    have htake : s.history point (k + 1) = s.history point k ++ previous.history := by
      simp only [history, List.take_add_one, List.flatMap_append]
      rw [show (s.turns point .empty s.performed)[k]? = some previous from hprevious]
      simp
    rw [memory_turns_succ hprevious h, hmemory, htake, latest?_append]

end Show

/-- A marcher goes on in a direction that it does not know yet, and on the next sheet it faces the
way it was brought there. -/
def Show.echo : Show :=
  let place (x y : Int32) : Placement := { position := ⟨x, y⟩ }
  let book (a : Action) : Book := Book.empty.insert .plain [⟨a, none⟩]
  ⟨[⟨"call", 4, true, [place 0 0], book (.forward (.number 2) (.slot .dof))⟩,
    ⟨"echo", 4, true, [place 32 (-32)], book (.standOut (.slot .dof))⟩]⟩

namespace Timeline

variable {s : Show} {o : Settings} {t : Timeline}

/-- In a built show, whatever a statement reads on any sheet is what the latest event before it has
told: of all motions that the marcher went through so far, which are those of its routines, cut as
they may be, and of all assignments. A variable that no event has told of is zero, and the marchers
marked for it on a scene are those who come to read such a variable there. -/
theorem build_recalls (h : build s o = .ok t) {k p : Nat} {sc : Scene}
    (hk : t.scenes[k]? = some sc) (hp : p < t.size) :
    ∃ turn, s.turn? p k = some turn ∧
      sc.lanes[p]? = some ⟨turn.cue.home.position, (turn.outcome .empty).routine⟩ ∧
      (turn.outcome .empty).routine.motions = turn.history.filterMap motion? ∧
      (∀ before st here, turn.Reaches before st here → ∀ slot : Slot,
        slot.read (here.station turn.cue) =
          (latest? slot (s.history p k ++ turn.start.history turn.cue before)).elim
            (.despite .unsetSlot 0) pure) ∧
      (p ∈ sc.markers.points .unsetSlot ↔ ∃ before st here, turn.Reaches before st here ∧
        ∃ slot ∈ st.action.reads (here.station turn.cue),
          latest? slot (s.history p k ++ turn.start.history turn.cue before) = none) := by
  obtain ⟨turn, hturn⟩ := build_turn h hk hp
  obtain ⟨hpoint, -, hlane⟩ := build_lane h hk hp hturn
  have hrecalls {before : Program} {st : Statement} {here : Progress}
      (hreach : turn.Reaches before st here) (slot : Slot) :
      (here.station turn.cue).remembered slot =
        latest? slot (s.history p k ++ turn.start.history turn.cue before) := by
    have hmemory := hreach.remembered slot
    rw [hpoint, Show.memory_turn? hturn, ← latest?_append] at hmemory
    rw [← hmemory, ← hpoint]
    rfl
  refine ⟨turn, hturn, hlane, turn.motions_outcome, fun before st here hreach slot => ?_, ?_⟩
  · rw [Slot.read, hrecalls hreach]
    cases latest? slot (s.history p k ++ turn.start.history turn.cue before) <;> rfl
  · rw [marked_iff h hk hp hturn, turn.mem_unsetSlot, and_iff_right rfl]
    refine exists_congr fun before => exists_congr fun st => exists_congr fun here =>
      and_congr_right fun hreach => ?_
    rw [Action.unset_plan, Station.Lacks]
    exact exists_congr fun slot => and_congr_right fun _ => by rw [hrecalls hreach]

theorem build_recalls_echo : ∃ t, build .echo {} = .ok t ∧
    (∃ sc ∈ t.scenes[0]?, 0 ∈ sc.markers.points .unsetSlot) ∧
    ∃ turn ∈ Show.echo.turn? 0 1, ∀ st here, turn.Reaches [] st here →
      Slot.dof.read (here.station turn.cue) = pure 90 := by
  obtain ⟨t, ht⟩ : ∃ t, (build .echo {}).toOption = some t :=
    Option.isSome_iff_exists.1 (by decide +kernel)
  have hbuild := eq_ok_of_toOption ht
  have hsize : t.size = 1 := build_size hbuild
  have hmarked : ∃ sc ∈ t.scenes[0]?, 0 ∈ sc.markers.points .unsetSlot := by
    have h : ∃ sc ∈ (build .echo {}).toOption.bind (·.scenes[0]?),
      0 ∈ sc.markers.points .unsetSlot := by decide +kernel
    rwa [ht] at h
  obtain ⟨sc, hsc⟩ : ∃ sc, t.scenes[1]? = some sc := by
    have h : ((build .echo {}).toOption.bind (·.scenes[1]?)).isSome := by decide +kernel
    rw [ht] at h
    exact Option.isSome_iff_exists.1 h
  obtain ⟨turn, hturn, -, -, hreads, -⟩ := build_recalls hbuild hsc (p := 0) (by omega)
  refine ⟨t, hbuild, hmarked, turn, hturn, fun st here hreach => ?_⟩
  have htold : latest? .dof (Show.echo.history 0 1) = some 90 := by decide +kernel
  have hread := hreads [] st here hreach .dof
  rw [show turn.start.history turn.cue [] = [] from rfl, List.append_nil, htold] at hread
  exact hread

end Timeline
end FieldShow
