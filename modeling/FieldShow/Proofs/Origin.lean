import FieldShow.Proofs.Boundary
import FieldShow.Proofs.Moved
import FieldShow.Proofs.Walking

/-!
Drill does not depend on where the origin lies. A program and its moved copy go through the same
course, a fixed distance apart, as long as no sum of places stops at the end of its range; so they
bring out the same routine and the same mistakes.
-/

namespace FieldShow

open Vec

def Placement.shift (d : Vec) (p : Placement) : Placement :=
  { p with position := p.position + d, refs := p.refs.map (·.map (· + d)) }

def Sheet.shift (d : Vec) (s : Sheet) : Sheet :=
  { s with placements := s.placements.map (·.shift d) }

def Show.shift (d : Vec) (s : Show) : Show := ⟨s.sheets.map (·.shift d)⟩

def Cue.shift (d : Vec) (c : Cue) : Cue :=
  { c with home := c.home.shift d, next := c.next.map (· + d) }

def Turn.shift (d : Vec) (t : Turn) : Turn := { t with cue := t.cue.shift d }

namespace Placement

variable {d : Vec}

theorem reference_shift (p : Placement) (n : Nat) :
    (p.shift d).reference n = p.reference n + d := by
  by_cases hn : n = 0
  · simp [reference, shift, hn]
  · simp only [reference, shift, if_neg hn, Vector.getElem?_map]
    cases h : p.refs[n - 1]? with
    | none => rfl
    | some r => cases r <;> rfl

theorem reference_mem (p : Placement) (n : Nat) : p.reference n ∈ p.places := by
  unfold reference
  split
  · exact List.mem_cons_self ..
  · cases h : (p.refs[n - 1]?).join with
    | none => exact List.mem_cons_self ..
    | some v =>
      have hmem := Vector.mem_of_getElem? (Option.join_eq_some_iff.1 h)
      refine List.mem_cons_of_mem _ (List.mem_filterMap.2 ⟨some v, ?_, rfl⟩)
      exact Vector.mem_toList_iff.2 hmem

theorem places_shift (p : Placement) : (p.shift d).places = p.places.map (· + d) := by
  simp only [places, shift, Vector.toList_map, List.map_cons, List.filterMap_map,
    List.map_filterMap]
  rfl

theorem Valid.addFits {p : Placement} (h : (p.shift d).Valid) : ∀ v ∈ p.places, v.AddFits d := by
  intro v hv
  refine (h (v + d) ?_).addFits
  rw [places_shift]
  exact List.mem_map_of_mem hv

end Placement

structure Cue.Shifts (d : Vec) (c : Cue) : Prop where
  home : ∀ v ∈ c.home.places, v.AddFits d
  next : ∀ v ∈ c.next, v.AddFits d

theorem Motion.starts_append (ms ns : List Motion) (p : Vec) :
    starts (ms ++ ns) p = starts ms p ++ starts ns (lead ms p) := by
  induction ms generalizing p with
  | nil => rfl
  | cons m ms ih => exact congrArg ((p, m) :: ·) (ih (m.destination p))

theorem Vec.Moved.toEnd {d p p' : Vec} {m : Motion} (h : Moved d p p') (hm : m.Straight)
    (hf : (Walk.mk m p).ToEndFits) (hf' : (Walk.mk m p').ToEndFits) :
    Moved d (Walk.mk m p).toEnd.pos (Walk.mk m p').toEnd.pos := by
  obtain ⟨beats, cursor, path⟩ := m
  unfold Walk.ToEndFits at hf hf'
  unfold Walk.toEnd
  cases path with
  | arc => cases hm
  | stand => split <;> exact h
  | line =>
    split
    · next hb =>
      rw [if_pos hb] at hf hf'
      exact h.add hf.2 hf'.2
    · next hb =>
      rw [if_neg hb] at hf hf'
      exact h.add hf hf'

namespace Progress

variable {c : Cue} {s t : Progress} {p : Vec}

/-- No place that the motions so far lead to stops at the end of its range. -/
def Exact (p : Vec) (s : Progress) : Prop :=
  ∀ q ∈ Motion.starts s.motions.toList p, (Walk.mk q.2 q.1).ToEndFits

theorem motions_grow_take (m : Motion) (s : Progress) :
    s.motions.toList <+: (s.take c m).motions.toList := ⟨[m.rewind], (motions_take c m s).symm⟩

theorem Course.motions_grow (h : Course c s t) : s.motions.toList <+: t.motions.toList := by
  refine h.keeps (P := fun t => s.motions.toList <+: t.motions.toList) ?_ (List.prefix_refl _)
  intro t u hstep ht
  cases hstep with
  | note | remember | runOut => exact ht
  | take => exact ht.trans (motions_grow_take ..)
  | @cut loc m =>
    have hnoted : s.motions.toList <+:
        { t.note { c with loc } .outOfTime with overflowed := true }.motions.toList := ht
    exact hnoted.trans (motions_grow_take ..)

theorem motions_grow_correct (s : Progress) :
    s.motions.toList <+: (s.correct c).motions.toList := by
  obtain ⟨heq, -⟩ | ⟨target, -, -, heq⟩ := s.correct_cases (c := c)
  · simp [heq]
  · rw [heq]
    exact motions_grow_take _ (s.note c .wrongPlace)

theorem motions_grow_fill (s : Progress) : s.motions.toList <+: (s.fill c).motions.toList := by
  obtain ⟨-, heq⟩ | ⟨-, heq⟩ := s.fill_cases (c := c)
  · simp [heq]
  · rw [heq]
    exact motions_grow_take _ (s.note c .timeLeft)

theorem Exact.earlier (h : t.Exact p) (hgrow : s.motions.toList <+: t.motions.toList) :
    s.Exact p := by
  obtain ⟨ms, hms⟩ := hgrow
  intro q hq
  refine h q ?_
  rw [← hms, Motion.starts_append]
  exact List.mem_append_left _ hq

theorem Exact.of_course (h : t.Exact p) (hc : Course c s t) : s.Exact p :=
  h.earlier hc.motions_grow

theorem Exact.of_note {k : Mistake} (h : (s.note c k).Exact p) : s.Exact p := h

theorem Exact.take {m : Motion} (h : (s.take c m).Exact p) (hs : s.Replays p) (hm : m.Laid) :
    (Walk.mk m s.pos).ToEndFits := by
  have hmotions : (s.take c m).motions.toList = s.motions.toList ++ [m] := by
    rw [motions_take, hm.rewind]
  refine h (s.pos, m) ?_
  rw [hmotions, Motion.starts_append, hs]
  exact List.mem_append_right _ (List.mem_singleton_self _)

end Progress

/-! ## A course and its moved copy -/

/-- The same state of a marcher on two fields, `d` apart, on a sheet that began at `p` and `p'`. -/
structure Progress.Shifted (d p p' : Vec) (s s' : Progress) : Prop where
  pos : Moved d s.pos s'.pos
  remaining : s'.remaining = s.remaining
  halted : s'.halted = s.halted
  overflowed : s'.overflowed = s.overflowed
  memory : s'.memory = s.memory
  markers : s'.markers = s.markers
  motions : s'.motions = s.motions
  replays : s.Replays p
  replays' : s'.Replays p'

namespace Progress

variable {c : Cue} {d p p' : Vec} {s s' : Progress}

theorem Shifted.note (h : Shifted d p p' s s') (k : Mistake) :
    Shifted d p p' (s.note c k) (s'.note (c.shift d) k) :=
  { h with markers := congrArg (·.register k c.loc c.point c.symbol) h.markers }

theorem Shifted.noteAll (h : Shifted d p p' s s') (ks : List Mistake) :
    Shifted d p p' (s.noteAll c ks) (s'.noteAll (c.shift d) ks) :=
  List.foldl_rel h fun k _ _ _ h => h.note k

theorem Shifted.remember (h : Shifted d p p' s s') (slot : Slot) (x : Float) :
    Shifted d p p' (s.remember c slot x) (s'.remember (c.shift d) slot x) :=
  { h with memory := congrArg (·.set c.point slot x) h.memory }

theorem Shifted.overflow (h : Shifted d p p' s s') :
    Shifted d p p' { s.note c .outOfTime with overflowed := true }
      { s'.note (c.shift d) .outOfTime with overflowed := true } :=
  { h.note (c := c) .outOfTime with overflowed := rfl }

theorem Shifted.runOut (h : Shifted d p p' s s') :
    Shifted d p p' (s.runOut c) (s'.runOut (c.shift d)) :=
  { h.overflow (c := c) with halted := rfl }

theorem Shifted.take (h : Shifted d p p' s s') {m : Motion} (hm : m.Laid) (hstraight : m.Straight)
    (he : (s.take c m).Exact p) (he' : (s'.take (c.shift d) m).Exact p') :
    Shifted d p p' (s.take c m) (s'.take (c.shift d) m) where
  pos := h.pos.toEnd hstraight (he.take h.replays hm) (he'.take h.replays' hm)
  remaining := congrArg (· - m.beats) h.remaining
  halted := h.halted
  overflowed := h.overflowed
  memory := by
    simp only [Progress.take, Progress.remember, Walk.motion_toEnd, h.memory]
    rfl
  markers := h.markers
  motions := by simp only [Progress.take, Progress.remember, Walk.motion_toEnd, h.motions]
  replays := h.replays.take hm
  replays' := h.replays'.take hm

theorem Shifted.append (h : Shifted d p p' s s') {m : Motion} (hm : m.Fresh)
    (hstraight : m.Straight) (he : (s.append c m).Exact p)
    (he' : (s'.append (c.shift d) m).Exact p') :
    Shifted d p p' (s.append c m) (s'.append (c.shift d) m) := by
  unfold Progress.append at he he' ⊢
  rw [h.remaining] at he' ⊢
  split
  · next hle =>
    rw [if_pos hle] at he he'
    exact h.take hm.laid hstraight he he'
  · next hle =>
    rw [if_neg hle] at he he'
    split
    · exact h.runOut
    · next hpos =>
      rw [if_neg hpos] at he he'
      exact h.overflow.take (hm.laid.clip _) hstraight he he'

theorem Shifted.appendAll (h : Shifted d p p' s s') {legs : List (Noted Motion)}
    (hsound : (Plan.go legs).Sound) (hstraight : ∀ leg ∈ legs, leg.value.Straight)
    (he : (s.appendAll c legs).Exact p) (he' : (s'.appendAll (c.shift d) legs).Exact p') :
    Shifted d p p' (s.appendAll c legs) (s'.appendAll (c.shift d) legs) := by
  induction legs generalizing s s' with
  | nil => exact h
  | cons leg legs ih =>
    obtain ⟨⟨hm, -⟩, hlegs⟩ := List.forall_mem_cons.1 hsound
    obtain ⟨hs, hrest⟩ := List.forall_mem_cons.1 hstraight
    rw [Progress.appendAll] at he
    rw [Progress.appendAll, h.remaining] at he'
    rw [Progress.appendAll, Progress.appendAll, h.remaining]
    have happend := (h.noteAll (c := c) leg.mistakes).append (c := c) hm hs
    split
    · next hdrops =>
      rw [if_pos hdrops] at he he'
      exact happend he he'
    · next hgoes =>
      rw [if_neg hgoes] at he he'
      have hleg := happend (he.of_course (course_appendAll hlegs _))
        (he'.of_course (course_appendAll hlegs _))
      exact ih hleg hlegs hrest he he'

theorem beats_reach {c c' : Cue} {s s' : Progress} (v : Vec) :
    (Circuit.reach c v s).1 = (Circuit.reach c' v s').1 := by
  unfold Circuit.reach
  split <;> rfl

theorem Shifted.reach (h : Shifted d p p' s s') (v : Vec)
    (he : (Circuit.reach c v s).2.Exact p) (he' : (Circuit.reach (c.shift d) v s').2.Exact p') :
    Shifted d p p' (Circuit.reach c v s).2 (Circuit.reach (c.shift d) v s').2 := by
  unfold Circuit.reach at he he' ⊢
  split
  · exact h
  · next hv =>
    rw [if_neg hv] at he he'
    exact (h.noteAll _).append (Motion.fresh_line ..) (Motion.straight_line ..) he he'

theorem Shifted.walk {circuit circuit' : Circuit} (hc : circuit.Shifted d circuit')
    (leg : Fin 4) (strides : Float) (idle : Nat) (h : Shifted d p p' s s')
    (he : (circuit.walk c leg strides idle s).Exact p)
    (he' : (circuit'.walk (c.shift d) leg strides idle s').Exact p') :
    Shifted d p p' (circuit.walk c leg strides idle s)
      (circuit'.walk (c.shift d) leg strides idle s') := by
  revert s' he
  -- the way to a corner is the same on both fields, and so is every choice on the walk
  fun_induction Circuit.walk c circuit leg strides idle s <;> intro s' h he he'
  case case1 hdone =>
    rwa [Circuit.walk, if_pos hdone]
  case case2 hmore hout hlong =>
    rw [Circuit.walk, if_neg hmore, h.remaining, if_pos hout, if_pos hlong]
    exact h.runOut
  case case3 hmore hout hshort =>
    rwa [Circuit.walk, if_neg hmore, h.remaining, if_pos hout, if_neg hshort]
  case case4 leg strides idle s hmore hleft v hleg after hidle hlap =>
    have hv : circuit'.corners[leg] - s'.pos = v := (hc.corners leg).sub h.pos
    rw [Circuit.walk, if_neg hmore, h.remaining, if_neg hleft, hv, if_pos hleg,
      if_pos ((beats_reach v).trans hidle), if_pos hlap] at he' ⊢
    exact (h.reach v he.of_note he'.of_note).note .badCountermarch
  case case5 leg strides idle s hmore hleft v hleg after hidle hlap ih =>
    have hv : circuit'.corners[leg] - s'.pos = v := (hc.corners leg).sub h.pos
    rw [Circuit.walk.eq_def (c.shift d), if_neg hmore, h.remaining, if_neg hleft, hv, if_pos hleg,
      if_pos ((beats_reach v).trans hidle), if_neg hlap] at he' ⊢
    have hafter := h.reach v (he.of_course (Circuit.course_walk ..))
      (he'.of_course (Circuit.course_walk ..))
    exact ih hafter he he'
  case case6 leg strides idle s hmore hleft v hleg after hused ih =>
    have hv : circuit'.corners[leg] - s'.pos = v := (hc.corners leg).sub h.pos
    rw [Circuit.walk.eq_def (c.shift d), if_neg hmore, h.remaining, if_neg hleft, hv, if_pos hleg,
      if_neg fun h => hused ((beats_reach v).trans h)] at he' ⊢
    have hafter := h.reach v (he.of_course (Circuit.course_walk ..))
      (he'.of_course (Circuit.course_walk ..))
    exact ih hafter he he'
  case case7 leg strides idle s hmore hleft v hleg beats =>
    have hv : circuit'.corners[leg] - s'.pos = v := (hc.corners leg).sub h.pos
    rw [Circuit.walk, if_neg hmore, h.remaining, if_neg hleft, hv, if_neg hleg,
      hc.headings] at he' ⊢
    exact (h.noteAll beats.mistakes).append (Motion.fresh_line ..) (Motion.straight_line ..) he he'

theorem Shifted.station (h : Shifted d p p' s s') (hcue : c.Shifts d) :
    (s.station c).Shifted d (s'.station (c.shift d)) where
  pos := h.pos
  home n := by
    change Moved d (c.home.reference n) ((c.home.shift d).reference n)
    rw [Placement.reference_shift]
    exact moved_add (hcue.home _ (c.home.reference_mem n))
  next := by
    change Option.Rel (Moved d) c.next (c.next.map (· + d))
    cases hnext : c.next with
    | none => exact .none
    | some v => exact .some (moved_add (hcue.next v hnext))
  remaining := h.remaining
  remembered := by
    funext slot
    exact congrArg (·.get? c.point slot) h.memory

theorem Shifted.carryOut (h : Shifted d p p' s s') {a : Action} (ha : a.usesOrigin = false)
    {plan plan' : Plan} (hplan : plan.Shifted d plan') (hsound : plan.Sound) (hlegs : a.Plans plan)
    (he : (s.carryOut c plan).Exact p) (he' : (s'.carryOut (c.shift d) plan').Exact p') :
    Shifted d p p' (s.carryOut c plan) (s'.carryOut (c.shift d) plan') := by
  cases hplan with
  | remember slot x => exact h.remember slot x
  | go legs => exact h.appendAll hsound (hlegs.straight ha) he he'
  | circuit hc leg strides => exact Shifted.walk hc leg strides 0 h he he'

theorem Shifted.perform (h : Shifted d p p' s s') (hcue : c.Shifts d) {a : Action}
    (ha : a.usesOrigin = false) (hf : a.PlanFits (s.station c))
    (hf' : a.PlanFits (s'.station (c.shift d))) (he : (s.perform c a).Exact p)
    (he' : (s'.perform (c.shift d) a).Exact p') :
    Shifted d p p' (s.perform c a) (s'.perform (c.shift d) a) := by
  have hplan := (h.station hcue).plan ha hf hf'
  simp only [Progress.perform, hplan.mistakes] at he he' ⊢
  exact (h.noteAll _).carryOut ha hplan.value (a.plan_sound _).2 (a.plan_plans _) he he'

def RunFits (c : Cue) : Program → Progress → Prop
  | [], _ => True
  | st :: rest, s =>
    s.halted = true ∨ st.action.PlanFits (s.station c) ∧
      RunFits c rest (s.perform { c with loc := st.loc } st.action)

instance decidableRunFits (c : Cue) :
    (prog : Program) → (s : Progress) → Decidable (s.RunFits c prog)
  | [], _ => .isTrue trivial
  | st :: rest, s =>
    have := decidableRunFits c rest (s.perform { c with loc := st.loc } st.action)
    inferInstanceAs (Decidable (_ ∨ _ ∧ _))

theorem Shifted.run (h : Shifted d p p' s s') (hcue : c.Shifts d) {prog : Program}
    (ha : ∀ st ∈ prog, st.action.usesOrigin = false) (hf : s.RunFits c prog)
    (hf' : s'.RunFits (c.shift d) prog) (he : (s.run c prog).Exact p)
    (he' : (s'.run (c.shift d) prog).Exact p') :
    Shifted d p p' (s.run c prog) (s'.run (c.shift d) prog) := by
  induction prog generalizing s s' with
  | nil => exact h
  | cons st prog ih =>
    obtain ⟨hst, hprog⟩ := List.forall_mem_cons.1 ha
    cases hgoes : s.halted with
    | true => rwa [run_of_halted hgoes, run_of_halted (h.halted.trans hgoes)]
    | false =>
      obtain ⟨hplan, hrest⟩ := hf.resolve_left (by simp [hgoes])
      obtain ⟨hplan', hrest'⟩ := hf'.resolve_left (by simp [h.halted, hgoes])
      rw [run_cons hgoes] at he ⊢
      rw [run_cons (h.halted.trans hgoes)] at he' ⊢
      have hloc : Cue.Shifts d { c with loc := st.loc } := ⟨hcue.home, hcue.next⟩
      have hperformed := Shifted.perform (c := { c with loc := st.loc }) h hloc hst hplan hplan'
        (he.of_course (course_run prog _)) (he'.of_course (course_run prog _))
      exact ih hperformed hprog hrest hrest' he he'

theorem Shifted.next (h : Shifted d p p' s s') (hcue : c.Shifts d) {target : Vec}
    (hnext : c.next = some target) : (c.shift d).next = some (target + d) ∧
      target + d - s'.pos = target - s.pos ∧ (s'.pos = target + d ↔ s.pos = target) := by
  have hmoved := moved_add (hcue.next target hnext)
  exact ⟨congrArg (·.map (· + d)) hnext, hmoved.sub h.pos, h.pos.eq_iff hmoved⟩

theorem Shifted.runDefault (h : Shifted d p p' s s') (hcue : c.Shifts d)
    (he : (s.runDefault c).Exact p) (he' : (s'.runDefault (c.shift d)).Exact p') :
    Shifted d p p' (s.runDefault c) (s'.runDefault (c.shift d)) := by
  have hsame : s'.runDefault (c.shift d) =
      s'.perform (c.shift d) (c.defaultAction s.remaining) := by
    rw [Progress.runDefault, h.remaining]
    obtain ⟨_, _, _, next, _⟩ := c
    cases next <;> rfl
  obtain ⟨horigin, hplan⟩ : (c.defaultAction s.remaining).usesOrigin = false ∧
      ∀ st, (c.defaultAction s.remaining).PlanFits st := by
    unfold Cue.defaultAction
    split <;> exact ⟨rfl, fun _ => trivial⟩
  rw [hsame] at he' ⊢
  exact h.perform hcue horigin (hplan _) (hplan _) he he'

theorem Shifted.correct (h : Shifted d p p' s s') (hcue : c.Shifts d)
    (he : (s.correct c).Exact p) (he' : (s'.correct (c.shift d)).Exact p') :
    Shifted d p p' (s.correct c) (s'.correct (c.shift d)) := by
  cases hnext : c.next with
  | none =>
    have hnext' : (c.shift d).next = none := congrArg (·.map (· + d)) hnext
    simpa only [Progress.correct, hnext, hnext'] using h
  | some target =>
    obtain ⟨hnext', hsub, hthere⟩ := h.next hcue hnext
    simp only [Progress.correct, hnext, hnext', h.remaining, hsub, hthere] at he he' ⊢
    split
    · exact h
    · next hpos =>
      rw [if_neg hpos] at he he'
      exact (h.note .wrongPlace).append (Motion.fresh_line ..) (Motion.straight_line ..) he he'

theorem Shifted.fill (h : Shifted d p p' s s') (he : (s.fill c).Exact p)
    (he' : (s'.fill (c.shift d)).Exact p') :
    Shifted d p p' (s.fill c) (s'.fill (c.shift d)) := by
  simp only [Progress.fill, h.remaining] at he he' ⊢
  split
  · next hleft =>
    rw [if_pos hleft] at he he'
    exact (h.note .timeLeft).append (Motion.fresh_stand ..) (Motion.straight_stand ..) he he'
  · exact h

theorem Shifted.finish (h : Shifted d p p' s s') (hcue : c.Shifts d)
    (he : ((s.correct c).fill c).Exact p)
    (he' : ((s'.correct (c.shift d)).fill (c.shift d)).Exact p') :
    s'.finish (c.shift d) = s.finish c := by
  have hcorrected := h.correct hcue (he.earlier (motions_grow_fill _))
    (he'.earlier (motions_grow_fill _))
  have hfilled := hcorrected.fill he he'
  simp only [Progress.finish, hfilled.motions, hfilled.overflowed, hfilled.memory,
    hfilled.markers, hcorrected.remaining]

end Progress

open Progress

namespace Turn

variable {d : Vec} {t : Turn}

/-- No sum of places on a sheet stops at the end of its range: neither at the corners of a loop nor
where a motion leads. -/
structure Fits (t : Turn) : Prop where
  plans : t.start.RunFits t.cue (t.program.getD [])
  motions : ∀ q ∈ Motion.starts (t.outcome .empty).routine.motions t.cue.home.position,
    (Walk.mk q.2 q.1).ToEndFits

instance (t : Turn) : Decidable t.Fits :=
  decidable_of_iff (_ ∧ _) ⟨fun h => ⟨h.1, h.2⟩, fun h => ⟨h.plans, h.motions⟩⟩

theorem shifted_start (hcue : t.cue.Shifts d) :
    Shifted d t.cue.home.position (t.shift d).cue.home.position t.start (t.shift d).start :=
  ⟨moved_add (hcue.home _ (List.mem_cons_self ..)), rfl, rfl, rfl, rfl, rfl, rfl, rfl, rfl⟩

theorem shift_outcome (hcue : t.cue.Shifts d)
    (ha : ∀ st ∈ t.program.getD [], st.action.usesOrigin = false) (hf : t.Fits)
    (hf' : (t.shift d).Fits) : (t.shift d).outcome .empty = t.outcome .empty := by
  have he : (((t.perform .empty).correct t.cue).fill t.cue).Exact t.cue.home.position := hf.motions
  have he' : ((((t.shift d).perform .empty).correct (t.shift d).cue).fill (t.shift d).cue).Exact
    (t.shift d).cue.home.position := hf'.motions
  have hstart := shifted_start hcue
  have hperform := (he.earlier (motions_grow_fill _)).earlier (motions_grow_correct _)
  have hperform' := (he'.earlier (motions_grow_fill _)).earlier (motions_grow_correct _)
  have hplans := hf.plans
  have hplans' := hf'.plans
  refine Shifted.finish (s := t.perform .empty) ?_ hcue he he'
  obtain ⟨cue, program, beats, memory⟩ := t
  match program with
  | some (st :: rest) => exact hstart.run hcue ha hplans hplans' hperform hperform'
  | some [] | none => exact hstart.runDefault hcue hperform hperform'

end Turn

namespace Show

variable {d : Vec} {s : Show} {index point : Nat}

theorem getElem?_shift (s : Show) (index : Nat) :
    (s.shift d).sheets[index]? = (s.sheets[index]?).map (·.shift d) := List.getElem?_map ..

theorem placeAfter?_shift (s : Show) (index point : Nat) :
    (s.shift d).placeAfter? index point = (s.placeAfter? index point).map (· + d) := by
  have hnext : (s.shift d).nextPerformed? index = (s.nextPerformed? index).map (·.shift d) := by
    simp only [nextPerformed?, shift, ← List.map_drop, List.find?_map]
    rfl
  rw [placeAfter?, placeAfter?, hnext]
  cases s.nextPerformed? index with
  | none => rfl
  | some sheet =>
    simp only [Option.map_some, Option.bind_some, Sheet.shift, List.getElem?_map]
    cases sheet.placements[point]? <;> rfl

theorem turn_shift (sheet : Sheet) (home : Placement) (symbol : Symbol) (memory : Memory) :
    (s.shift d).turn index point (sheet.shift d) (home.shift d) symbol memory =
      (s.turn index point sheet home symbol memory).shift d := by
  simp only [turn, Turn.shift, Cue.shift, placeAfter?_shift]
  rfl

theorem Valid.turn_shifts (h : (s.shift d).Valid) {sheet : Sheet} {home : Placement}
    (hsheet : s.sheets[index]? = some sheet) (hhome : sheet.placements[point]? = some home)
    (symbol : Symbol) (memory : Memory) :
    (s.turn index point sheet home symbol memory).cue.Shifts d := by
  have hplaced {sheet : Sheet} (hsheet : sheet ∈ s.sheets) {p : Placement}
      (hp : p ∈ sheet.placements) : ∀ v ∈ p.places, v.AddFits d :=
    Placement.Valid.addFits
      ((h _ (List.mem_map_of_mem hsheet)).2 _ (List.mem_map_of_mem hp))
  refine ⟨hplaced (List.mem_of_getElem? hsheet) (List.mem_of_getElem? hhome), fun v hv => ?_⟩
  obtain ⟨next, hnext, hplace⟩ := Option.bind_eq_some_iff.1 hv
  obtain ⟨p, hp, rfl⟩ := Option.map_eq_some_iff.1 hplace
  have hmem := List.mem_of_mem_drop (List.mem_of_find?_eq_some hnext)
  exact hplaced hmem (List.mem_of_getElem? hp) _ (List.mem_cons_self ..)

/-- On its own a marcher meets no sum of places that stops at the end of its range. -/
def OutcomeFits (s : Show) (index point : Nat) (symbol : Symbol) : Prop :=
  ∀ sheet ∈ s.sheets[index]?, ∀ home ∈ sheet.placements[point]?,
    (s.turn index point sheet home symbol .empty).Fits

instance (s : Show) (index point : Nat) (symbol : Symbol) :
    Decidable (s.OutcomeFits index point symbol) :=
  inferInstanceAs (Decidable (∀ sheet ∈ s.sheets[index]?, ∀ home ∈ sheet.placements[point]?, _))

/-- A show moved as a whole, still within the limits of the field, is gone through with the same
motions and the same mistakes, unless a statement uses the origin. Only sums have to be exact in
both shows: the difference of two places may stop at the end of its range. -/
theorem outcome_shift (h : s.Valid) (h' : (s.shift d).Valid) {sheet : Sheet}
    (hsheet : s.sheets[index]? = some sheet) (hpoint : point < s.size) {symbol : Symbol}
    (ha : ∀ st ∈ (sheet.book.get? symbol).getD [], st.action.usesOrigin = false)
    (hf : s.OutcomeFits index point symbol) (hf' : (s.shift d).OutcomeFits index point symbol) :
    ∃ o, s.outcome index point symbol = .ok o ∧
      (s.shift d).outcome index point symbol = .ok o := by
  obtain ⟨home, hhome⟩ := h.exists_placement hsheet hpoint
  have hsheet' : (s.shift d).sheets[index]? = some (sheet.shift d) := by
    rw [getElem?_shift, hsheet]
    rfl
  have hhome' : (sheet.shift d).placements[point]? = some (home.shift d) := by
    rw [Sheet.shift, List.getElem?_map, hhome]
    rfl
  have hfits' := hf' _ hsheet' _ hhome'
  rw [turn_shift] at hfits'
  have heq := Turn.shift_outcome (h'.turn_shifts hsheet hhome symbol .empty) ha
    (hf _ hsheet _ hhome) hfits'
  refine ⟨_, h.outcome_eq hsheet hhome symbol, ?_⟩
  rw [h'.outcome_eq hsheet' hhome' symbol, turn_shift, heq]

def parade : Show :=
  let place (x y : Int32) : Placement :=
    ⟨⟨x, y⟩, #v[some ⟨64, 32⟩, some ⟨96, 32⟩, none], .plain⟩
  let book := Book.empty.insert .plain
    [⟨.countermarch (.ref 1) (.ref 2) (.number 4) (.constant .north) (.constant .east)
      (.number 10), none⟩,
    ⟨.diagonalFirst (.ref 1), none⟩, ⟨.forward (.number 2) (.direction .next), none⟩]
  ⟨[⟨"parade", 12, true, [place 0 0], book⟩, ⟨"halt", 4, true, [place 160 80], .empty⟩]⟩

theorem outcome_shift_parade : ∃ o, parade.outcome 0 0 .plain = .ok o ∧
    (parade.shift ⟨1000, -1600⟩).outcome 0 0 .plain = .ok o := by
  have hvalid : parade.Valid := by decide +kernel
  have hvalid' : (parade.shift ⟨1000, -1600⟩).Valid := by decide +kernel
  have hsheet : parade.sheets[0]? = some parade.sheets[0] := rfl
  have hpoint : 0 < parade.size := by decide
  have hbook : ∀ st ∈ (parade.sheets[0].book.get? .plain).getD [],
    st.action.usesOrigin = false := by decide
  have hfits : parade.OutcomeFits 0 0 .plain := by decide +kernel
  have hfits' : (parade.shift ⟨1000, -1600⟩).OutcomeFits 0 0 .plain := by decide +kernel
  exact outcome_shift hvalid hvalid' hsheet hpoint hbook hfits hfits'

end Show
end FieldShow
