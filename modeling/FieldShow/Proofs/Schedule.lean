import FieldShow.Timeline.Basic

/-!
The beats on which scenes begin. They are the sums of the beats before them, and the scene in which
a beat falls is found as well by taking off the beats of one scene after the other.
-/

namespace FieldShow

namespace Scene

variable {start total : Nat} {s : Scene} {scenes : List Scene} {starts : List Nat}

theorem schedule_cons (start : Nat) (s : Scene) (scenes : List Scene) :
    schedule start (s :: scenes) =
      if UInt32.size ≤ start + s.beats then .error .tooManyBeats
      else (schedule (start + s.beats) scenes).map fun p => (start :: p.1, p.2) := by
  rw [schedule]
  split
  · rfl
  · cases schedule (start + s.beats) scenes <;> rfl

theorem schedule_cons_ok (h : schedule start (s :: scenes) = .ok (starts, total)) :
    start + s.beats < UInt32.size ∧ ∃ later, starts = start :: later ∧
      schedule (start + s.beats) scenes = .ok (later, total) := by
  rw [schedule_cons] at h
  split at h
  · cases h
  · next hfits =>
    cases hrest : schedule (start + s.beats) scenes with
    | error f =>
      rw [hrest] at h
      cases h
    | ok p =>
      rw [hrest] at h
      obtain ⟨rfl, rfl⟩ := Prod.mk.inj (Except.ok.inj h)
      exact ⟨Nat.lt_of_not_le hfits, p.1, rfl, rfl⟩

theorem schedule_of_lt (h : start + sumOf beats scenes < UInt32.size) :
    ∃ starts, schedule start scenes = .ok (starts, start + sumOf beats scenes) := by
  induction scenes generalizing start with
  | nil => exact ⟨[], rfl⟩
  | cons s scenes ih =>
    rw [sumOf_cons, ← Nat.add_assoc] at h ⊢
    obtain ⟨later, hlater⟩ := ih h
    have hfits : ¬UInt32.size ≤ start + s.beats := by omega
    exact ⟨start :: later, by rw [schedule_cons, if_neg hfits, hlater]; rfl⟩

theorem schedule_of_le (hstart : start < UInt32.size)
    (h : UInt32.size ≤ start + sumOf beats scenes) :
    schedule start scenes = .error .tooManyBeats := by
  induction scenes generalizing start with
  | nil => exact absurd hstart (Nat.not_lt.2 h)
  | cons s scenes ih =>
    rw [schedule_cons]
    split
    · rfl
    · next hfits =>
      rw [sumOf_cons, ← Nat.add_assoc] at h
      rw [ih (Nat.lt_of_not_le hfits) h]
      rfl

theorem total_of_schedule (h : schedule start scenes = .ok (starts, total)) :
    total = start + sumOf beats scenes := by
  induction scenes generalizing start starts with
  | nil => exact (Prod.mk.inj (Except.ok.inj h)).2.symm
  | cons s scenes ih =>
    obtain ⟨-, later, -, hlater⟩ := schedule_cons_ok h
    rw [ih hlater, sumOf_cons, Nat.add_assoc]

theorem total_lt_of_schedule (hstart : start < UInt32.size)
    (h : schedule start scenes = .ok (starts, total)) : total < UInt32.size := by
  refine Nat.lt_of_not_le fun hle => ?_
  rw [total_of_schedule h] at hle
  rw [schedule_of_le hstart hle] at h
  cases h

theorem length_schedule (h : schedule start scenes = .ok (starts, total)) :
    starts.length = scenes.length := by
  induction scenes generalizing start starts with
  | nil =>
    obtain ⟨rfl, -⟩ := Prod.mk.inj (Except.ok.inj h)
    rfl
  | cons s scenes ih =>
    obtain ⟨-, later, rfl, hlater⟩ := schedule_cons_ok h
    rw [List.length_cons, List.length_cons, ih hlater]

theorem getElem?_schedule (h : schedule start scenes = .ok (starts, total)) {i : Nat}
    (hi : i < scenes.length) : starts[i]? = some (start + sumOf beats (scenes.take i)) := by
  induction scenes generalizing start starts i with
  | nil => exact absurd hi (Nat.not_lt_zero i)
  | cons s scenes ih =>
    obtain ⟨-, later, rfl, hlater⟩ := schedule_cons_ok h
    cases i with
    | zero => rfl
    | succ i =>
      rw [List.getElem?_cons_succ, ih hlater (Nat.lt_of_succ_lt_succ hi), List.take_succ_cons,
        sumOf_cons, Nat.add_assoc]

end Scene

namespace Timeline

variable {t : Timeline} {scenes : List Scene} {size beat i k : Nat} {least : Int32}

theorem total_eq (t : Timeline) : t.total = sumOf Scene.beats t.scenes :=
  (Scene.total_of_schedule t.scheduled).trans (Nat.zero_add _)

theorem total_lt (t : Timeline) : t.total < UInt32.size :=
  Scene.total_lt_of_schedule (by decide) t.scheduled

def beatsBefore (t : Timeline) (index : Nat) : Nat := sumOf Scene.beats (t.scenes.take index)

theorem sceneStart?_of_lt (h : i < t.scenes.length) : t.sceneStart? i = some (t.beatsBefore i) := by
  rw [sceneStart?, Scene.getElem?_schedule t.scheduled h, Nat.zero_add, beatsBefore]

theorem sceneStart?_eq_none_iff : t.sceneStart? i = none ↔ t.scenes.length ≤ i := by
  rw [sceneStart?, List.getElem?_eq_none_iff, Scene.length_schedule t.scheduled]

theorem ofScenes_ok (h : ofScenes scenes size least = .ok t) :
    t.scenes = scenes ∧ t.size = size ∧ t.least = least := by
  rw [ofScenes] at h
  split at h
  · cases h
    exact ⟨rfl, rfl, rfl⟩
  · cases h

theorem ofScenes_of_lt (h : sumOf Scene.beats scenes < UInt32.size) (size : Nat) (least : Int32) :
    ∃ t, ofScenes scenes size least = .ok t := by
  rw [← Nat.zero_add (sumOf Scene.beats scenes)] at h
  obtain ⟨starts, hstarts⟩ := Scene.schedule_of_lt h
  rw [ofScenes]
  split
  · exact ⟨_, rfl⟩
  · next hfault =>
    rw [hstarts] at hfault
    cases hfault

theorem ofScenes_of_le (h : UInt32.size ≤ sumOf Scene.beats scenes) (size : Nat) (least : Int32) :
    ofScenes scenes size least = .error .tooManyBeats := by
  rw [← Nat.zero_add (sumOf Scene.beats scenes)] at h
  have hfault := Scene.schedule_of_le (by decide) h
  rw [ofScenes]
  split
  · next hok =>
    rw [hfault] at hok
    cases hok
  · next hf =>
    rw [hfault] at hf
    exact congrArg Except.error (Except.error.inj hf).symm

theorem exists_ofScenes_iff : (∃ t, ofScenes scenes size least = .ok t) ↔
    sumOf Scene.beats scenes < UInt32.size := by
  refine ⟨fun ⟨t, h⟩ => ?_, fun h => ofScenes_of_lt h size least⟩
  rw [← (ofScenes_ok h).1, ← t.total_eq]
  exact t.total_lt

/-- The scene in which a beat falls, and the beat there, by taking off the beats of those before it.
The last scene takes what is left. -/
def locateIn : List Scene → Nat → Nat × Nat
  | s :: rest, beat =>
    if rest = [] ∨ beat < s.beats then (0, beat)
    else
      let (i, k) := locateIn rest (beat - s.beats)
      (i + 1, k)
  | [], beat => (0, beat)

theorem locateIn_scene (hne : scenes ≠ []) (h : beat ≤ sumOf Scene.beats scenes) :
    ∃ sc, scenes[(locateIn scenes beat).1]? = some sc ∧ (locateIn scenes beat).2 ≤ sc.beats := by
  induction scenes generalizing beat with
  | nil => exact absurd rfl hne
  | cons sc rest ih =>
    rw [sumOf_cons] at h
    rw [locateIn]
    split
    · next hhere =>
      refine ⟨sc, rfl, ?_⟩
      obtain rfl | hlt := hhere
      · exact h
      · exact Nat.le_of_lt hlt
    · next hlater =>
      exact ih (fun hrest => hlater (.inl hrest)) (by omega)

theorem locateIn_sum (scenes : List Scene) (beat : Nat) :
    sumOf Scene.beats (scenes.take (locateIn scenes beat).1) + (locateIn scenes beat).2 = beat := by
  induction scenes generalizing beat with
  | nil => simp [locateIn]
  | cons sc rest ih =>
    rw [locateIn]
    split
    · simp
    · next hlater =>
      have := ih (beat - sc.beats)
      simp only [List.take_succ_cons, sumOf_cons]
      omega

theorem findIdx_schedule {start total : Nat} {starts : List Nat} (hne : scenes ≠ [])
    (h : Scene.schedule start scenes = .ok (starts, total)) (hle : start ≤ beat) :
    starts.findIdx (fun s => beat < s) = (locateIn scenes (beat - start)).1 + 1 := by
  -- `start` is where the first scene begins, and `beat - start` is what `locateIn` has left there
  induction scenes generalizing start starts with
  | nil => exact absurd rfl hne
  | cons sc rest ih =>
    obtain ⟨-, later, rfl, hlater⟩ := Scene.schedule_cons_ok h
    rw [List.findIdx_cons, decide_eq_false (Nat.not_lt.2 hle), cond_false, locateIn]
    split
    · next hhere =>
      -- either nothing follows, or what follows has not begun
      cases rest with
      | nil =>
        obtain ⟨rfl, -⟩ := Prod.mk.inj (Except.ok.inj hlater)
        rfl
      | cons next rest =>
        have hlt : beat < start + sc.beats := by
          have := hhere.resolve_left nofun
          omega
        obtain ⟨-, last, rfl, -⟩ := Scene.schedule_cons_ok hlater
        rw [List.findIdx_cons, decide_eq_true hlt, cond_true]
    · next hthere =>
      obtain ⟨hrest, hover⟩ := not_or.1 hthere
      rw [ih hrest hlater (by omega), Nat.sub_sub]

theorem locate_eq (t : Timeline) (beat : Nat) : t.locate beat =
    if t.scenes = [] then .error .emptyTimeline
    else if t.total < beat then .error (.beatOutOfRange beat t.total)
    else .ok (locateIn t.scenes beat) := by
  rw [locate]
  split
  · rfl
  next hne =>
  split
  · rfl
  next hle =>
  have hscene : t.starts.findIdx (fun start => beat < start) - 1 = (locateIn t.scenes beat).1 := by
    rw [findIdx_schedule hne t.scheduled (Nat.zero_le _), Nat.sub_zero, Nat.add_sub_cancel]
  obtain ⟨sc, hsc, -⟩ := locateIn_scene hne (t.total_eq ▸ Nat.le_of_not_lt hle)
  have hstart : t.starts[(locateIn t.scenes beat).1]? =
      some (t.beatsBefore (locateIn t.scenes beat).1) :=
    sceneStart?_of_lt (List.getElem?_eq_some_iff.1 hsc).1
  have hbeat : beat - t.beatsBefore (locateIn t.scenes beat).1 = (locateIn t.scenes beat).2 := by
    have hsum := locateIn_sum t.scenes beat
    rw [beatsBefore]
    omega
  simp only [hscene, List.getD_eq_getElem?_getD, hstart, Option.getD_some, hbeat]

end Timeline
end FieldShow
