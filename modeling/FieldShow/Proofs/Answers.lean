import FieldShow.Proofs.Boundary
import FieldShow.Proofs.Segments

/-!
Questions to a timeline. In one that is worked out every scene has a lane for every marcher, so a
question is turned down for a marcher, a scene or a beat that there is not, and for nothing else.
-/

namespace FieldShow

theorem Motion.positionAfter_split (ms : List Motion) (p : Vec) (k : Nat) :
    ∃ past ahead, ms = past ++ ahead ∧ sumOf beats past ≤ k ∧
      (∀ m ∈ ahead.head?, k - sumOf beats past < m.beats) ∧
      positionAfter ms p k = ahead.head?.elim (lead past p) fun m =>
        ((Walk.mk m (lead past p)).seek (k - sumOf beats past)).pos := by
  induction ms generalizing p k with
  | nil => exact ⟨[], [], rfl, Nat.zero_le k, nofun, rfl⟩
  | cons m ms ih =>
    rw [positionAfter]
    split
    · next hunder =>
      refine ⟨[], m :: ms, rfl, Nat.zero_le k, ?_, rfl⟩
      simpa using hunder
    · next hover =>
      obtain ⟨past, ahead, rfl, hsum, hhead, hpos⟩ := ih (m.destination p) (k - m.beats)
      have hle : m.beats ≤ k := Nat.le_of_not_lt hover
      -- the beats of a motion that is over are taken off with those of the motions after it
      have hleft : k - m.beats - sumOf beats past = k - sumOf beats (m :: past) := by
        rw [sumOf_cons, Nat.sub_sub]
      rw [hleft] at hhead hpos
      refine ⟨m :: past, ahead, rfl, ?_, hhead, hpos⟩
      rw [sumOf_cons]
      omega

namespace Scene

variable {i : Nat} {sheet : Sheet} {outcomes : List Outcome}

theorem map_start_of (h : sheet.placements.length ≤ outcomes.length) :
    (Scene.of i sheet outcomes).lanes.map Lane.start = sheet.placements.map (·.position) := by
  calc (Scene.of i sheet outcomes).lanes.map Lane.start
      = List.zipWith (fun p _ => p.position) sheet.placements outcomes := List.map_zipWith
    _ = ((sheet.placements.zip outcomes).map Prod.fst).map (·.position) := by
      rw [List.map_map, ← List.map_uncurry_zip_eq_zipWith]
      rfl
    _ = sheet.placements.map (·.position) := by rw [List.map_fst_zip h]

theorem map_routine_of (h : outcomes.length ≤ sheet.placements.length) :
    (Scene.of i sheet outcomes).lanes.map Lane.routine = outcomes.map (·.routine) := by
  calc (Scene.of i sheet outcomes).lanes.map Lane.routine
      = List.zipWith (fun _ o => o.routine) sheet.placements outcomes := List.map_zipWith
    _ = ((sheet.placements.zip outcomes).map Prod.snd).map (·.routine) := by
      rw [List.map_map, ← List.map_uncurry_zip_eq_zipWith]
      rfl
    _ = outcomes.map (·.routine) := by rw [List.map_snd_zip h]

end Scene

namespace Timeline

variable {s : Show} {o : Settings} {t : Timeline} {p i beat : Nat} {f : Fault}

/-- A timeline has all the marchers of its show in all the scenes, each with its place on the sheet
and with what was worked out for it there. -/
structure Complete (s : Show) (t : Timeline) : Prop where
  size : t.size = s.size
  scenes : t.scenes.length = s.performed.length
  starts : ∀ i, (∃ start, t.sceneStart? i = some start) ↔ i < t.scenes.length
  lanes : ∀ sc ∈ t.scenes, sc.lanes.length = t.size
  places : ∀ (k : Nat) (sc : Scene), t.scenes[k]? = some sc →
    ∃ i sheet, s.performed[k]? = some (i, sheet) ∧
      sc.lanes.map Lane.start = sheet.placements.map (·.position) ∧
      sc.lanes.map Lane.routine = (s.column k).map (·.routine)

theorem build_complete (h : build s o = .ok t) : t.Complete s where
  size := build_size h
  scenes := length_scenes h
  starts i := by
    rw [← Option.isSome_iff_exists, Option.isSome_iff_ne_none, ne_eq, sceneStart?_eq_none_iff,
      Nat.not_le]
  lanes sc hsc := by
    obtain ⟨k, hk⟩ := List.mem_iff_getElem?.1 hsc
    exact build_length_lanes h hk
  places k sc hk := by
    obtain ⟨i, sheet, hperf, rfl⟩ := build_performed h hk
    have hvalid := (build_ok h).1
    have hmem := List.mem_of_getElem? (Show.mem_performed (List.mem_of_getElem? hperf))
    have hplaces : sheet.placements.length = s.size := (hvalid sheet hmem).1
    have hcolumn : (s.column k).length = s.size := hvalid.length_column hperf
    have hsame := hplaces.trans hcolumn.symm
    exact ⟨i, sheet, hperf, Scene.map_start_of (Nat.le_of_eq hsame),
      Scene.map_routine_of (Nat.le_of_eq hsame.symm)⟩

theorem answer_of_check {ε α : Type} {fault : Option ε} {answer : Except ε α}
    (hfault : ∀ f, fault = some f → answer = .error f)
    (hnone : fault = none → ∃ a, answer = .ok a) :
    ((∃ a, answer = .ok a) ↔ fault = none) ∧ ∀ f, answer = .error f → fault = some f := by
  cases hf : fault with
  | none =>
    obtain ⟨a, ha⟩ := hnone hf
    simp [ha]
  | some f =>
    have herr : answer = .error f := hfault f hf
    simp [herr]

def positionFault? (t : Timeline) (p beat : Nat) : Option Fault :=
  if t.size ≤ p then some (.marcherOutOfRange p t.size)
  else if t.scenes = [] then some .emptyTimeline
  else if t.total < beat then some (.beatOutOfRange beat t.total)
  else none

def pathFault? (t : Timeline) (p i : Nat) : Option Fault :=
  if t.size ≤ p then some (.marcherOutOfRange p t.size)
  else if t.scenes.length ≤ i then some (.sceneOutOfRange i t.scenes.length)
  else none

theorem positionFault?_eq_none_iff :
    t.positionFault? p beat = none ↔ p < t.size ∧ t.scenes ≠ [] ∧ beat ≤ t.total := by
  grind [positionFault?]

theorem pathFault?_eq_none_iff :
    t.pathFault? p i = none ↔ p < t.size ∧ i < t.scenes.length := by grind [pathFault?]

theorem kind_positionFault? (h : t.positionFault? p beat = some f) : f.kind = .playback := by
  grind [positionFault?, Fault.kind]

theorem kind_pathFault? (h : t.pathFault? p i = some f) : f.kind = .playback := by
  grind [pathFault?, Fault.kind]

theorem position_of_fault (hf : t.positionFault? p beat = some f) :
    t.position p beat = .error f := by
  unfold positionFault? at hf
  split at hf
  · next hp =>
    obtain rfl := Option.some.inj hf
    simp only [position, checkMarcher, if_neg (Nat.not_lt.2 hp), bind, Except.bind]
  next hp =>
  have hp : p < t.size := Nat.lt_of_not_le hp
  split at hf
  · next hempty =>
    obtain rfl := Option.some.inj hf
    simp only [position, checkMarcher, if_pos hp, locate_of_empty hempty, bind, Except.bind]
  next hne =>
  split at hf
  · next hbeat =>
    obtain rfl := Option.some.inj hf
    simp only [position, checkMarcher, if_pos hp, locate_eq, if_neg hne, if_pos hbeat, bind,
      Except.bind]
  · cases hf

theorem path_of_fault (hf : t.pathFault? p i = some f) : t.path p i = .error f := by
  unfold pathFault? at hf
  split at hf
  · next hp =>
    obtain rfl := Option.some.inj hf
    simp only [path, checkMarcher, if_neg (Nat.not_lt.2 hp), bind, Except.bind]
  next hp =>
  have hp : p < t.size := Nat.lt_of_not_le hp
  split at hf
  · next hi =>
    obtain rfl := Option.some.inj hf
    simp only [path, checkMarcher, if_pos hp, scene, List.getElem?_eq_none hi, bind, Except.bind]
  · cases hf

/-! ## Questions that are answered -/

/-- A marcher is found on a beat by way of a scene and a lane that there are. No more beats are
taken off than have passed: neither those before the scene nor those of the motions that are
over. -/
def Finds (t : Timeline) (p beat : Nat) (v : Vec) : Prop :=
  ∃ i start sc l past ahead, t.sceneStart? i = some start ∧ t.scenes[i]? = some sc ∧
    sc.lanes[p]? = some l ∧ start ≤ beat ∧ beat - start ≤ sc.beats ∧
    l.routine.motions = past ++ ahead ∧ sumOf Motion.beats past ≤ beat - start ∧
    (∀ m ∈ ahead.head?, beat - start - sumOf Motion.beats past < m.beats) ∧
    v = ahead.head?.elim (Motion.lead past l.start) fun m =>
      ((Walk.mk m (Motion.lead past l.start)).seek
        (beat - start - sumOf Motion.beats past)).pos

theorem exists_lane (h : build s o = .ok t) {sc : Scene} (hsc : t.scenes[i]? = some sc)
    (hp : p < t.size) : ∃ l, sc.lanes[p]? = some l :=
  ⟨_, List.getElem?_eq_getElem (by rwa [build_length_lanes h hsc])⟩

theorem position_of_none (h : build s o = .ok t) (hf : t.positionFault? p beat = none) :
    ∃ i k sc l, t.locate beat = .ok (i, k) ∧ t.scenes[i]? = some sc ∧ sc.lanes[p]? = some l ∧
      t.position p beat = .ok (Motion.positionAfter l.routine.motions l.start k) := by
  obtain ⟨hp, hne, hbeat⟩ := positionFault?_eq_none_iff.1 hf
  obtain ⟨⟨i, k⟩, hloc⟩ := locate_of_le hne hbeat
  obtain ⟨-, sc, hsc, -⟩ := locate_ok hloc
  obtain ⟨l, hl⟩ := exists_lane h hsc hp
  exact ⟨i, k, sc, l, hloc, hsc, hl, position_of_locate hloc hsc hp hl⟩

theorem path_of_none (h : build s o = .ok t) (hf : t.pathFault? p i = none) :
    ∃ sc l, t.scenes[i]? = some sc ∧ sc.lanes[p]? = some l ∧
      t.path p i = .ok (Motion.starts l.routine.motions l.start) := by
  obtain ⟨hp, hi⟩ := pathFault?_eq_none_iff.1 hf
  have hsc : t.scenes[i]? = some t.scenes[i] := List.getElem?_eq_getElem hi
  obtain ⟨l, hl⟩ := exists_lane h hsc hp
  exact ⟨t.scenes[i], l, hsc, hl, path_of_scene hp hsc hl⟩

theorem position_answer (h : build s o = .ok t) (p beat : Nat) :
    ((∃ v, t.position p beat = .ok v) ↔ t.positionFault? p beat = none) ∧
      ∀ f, t.position p beat = .error f → t.positionFault? p beat = some f :=
  answer_of_check (fun _ => position_of_fault) fun hf =>
    have ⟨_, _, _, _, _, _, _, hpos⟩ := position_of_none h hf
    ⟨_, hpos⟩

theorem path_answer (h : build s o = .ok t) (p i : Nat) :
    ((∃ segments, t.path p i = .ok segments) ↔ t.pathFault? p i = none) ∧
      ∀ f, t.path p i = .error f → t.pathFault? p i = some f :=
  answer_of_check (fun _ => path_of_fault) fun hf =>
    have ⟨_, _, _, _, hpath⟩ := path_of_none h hf
    ⟨_, hpath⟩

theorem position_found (h : build s o = .ok t) {v : Vec} (hv : t.position p beat = .ok v) :
    t.Finds p beat v := by
  have hf := (position_answer h p beat).1.1 ⟨v, hv⟩
  obtain ⟨i, k, sc, l, hloc, hsc, hl, hpos⟩ := position_of_none h hf
  obtain ⟨hsum, sc', hsc', hk⟩ := locate_ok hloc
  obtain rfl := Option.some.inj (hsc.symm.trans hsc')
  obtain rfl : k = beat - t.beatsBefore i := by omega
  obtain ⟨past, ahead, hms, hover, hhead, hplace⟩ :=
    Motion.positionAfter_split l.routine.motions l.start (beat - t.beatsBefore i)
  have hbegun : t.beatsBefore i ≤ beat := by omega
  refine ⟨i, t.beatsBefore i, sc, l, past, ahead, sceneStart?_eq hsc, hsc, hl, hbegun, hk, hms,
    hover, hhead, ?_⟩
  rw [← hplace]
  exact Except.ok.inj (hv.symm.trans hpos)

theorem kind_of_locate (h : t.locate beat = .error f) : f.kind = .playback := by
  grind [locate, Fault.kind]

theorem kind_of_scene (h : t.scene i = .error f) : f.kind = .playback := by
  grind [scene, Fault.kind]

/-- A timeline answers where a marcher is on a beat, and how it goes through a scene, for exactly
the marchers, beats and scenes that there are, and otherwise it names what there is not. -/
theorem answered_iff (h : build s o = .ok t) :
    t.Complete s ∧
    (∀ p beat, ((∃ v, t.position p beat = .ok v) ↔
        p < t.size ∧ t.scenes ≠ [] ∧ beat ≤ t.total) ∧
      ∀ f, t.position p beat = .error f →
        t.positionFault? p beat = some f ∧ f.kind = .playback) ∧
    (∀ p i, ((∃ segments, t.path p i = .ok segments) ↔ p < t.size ∧ i < t.scenes.length) ∧
      ∀ f, t.path p i = .error f → t.pathFault? p i = some f ∧ f.kind = .playback) ∧
    (∀ beat f, t.locate beat = .error f → f.kind = .playback) ∧
    (∀ i f, t.scene i = .error f → f.kind = .playback) ∧
    ∀ p beat v, t.position p beat = .ok v → t.Finds p beat v := by
  refine ⟨build_complete h, fun p beat => ?_, fun p i => ?_, fun _ _ => kind_of_locate,
    fun _ _ => kind_of_scene, fun _ _ _ => position_found h⟩
  · obtain ⟨hok, herr⟩ := position_answer h p beat
    refine ⟨hok.trans positionFault?_eq_none_iff, fun f hf => ?_⟩
    exact ⟨herr f hf, kind_positionFault? (herr f hf)⟩
  · obtain ⟨hok, herr⟩ := path_answer h p i
    refine ⟨hok.trans pathFault?_eq_none_iff, fun f hf => ?_⟩
    exact ⟨herr f hf, kind_pathFault? (herr f hf)⟩

theorem answered_iff_sample : (∃ v, sample.position 2 12 = .ok v) ∧
    (∃ segments, sample.path 2 1 = .ok segments) ∧
    ¬(∃ v, sample.position 3 0 = .ok v) ∧ ¬(∃ v, sample.position 0 13 = .ok v) ∧
    ¬∃ segments, sample.path 0 2 = .ok segments := by
  have hsize : sample.size = 3 := by decide +kernel
  have hlength : sample.scenes.length = 2 := by decide +kernel
  have htotal : sample.total = 12 := by decide +kernel
  have hne : sample.scenes ≠ [] := by decide +kernel
  obtain ⟨-, hposition, hpath, -⟩ := answered_iff build_sample
  simp only [hsize, htotal, hlength] at hposition hpath
  refine ⟨(hposition 2 12).1.2 ⟨by decide, hne, by decide⟩, (hpath 2 1).1.2 (by decide),
    fun hv => ?_, fun hv => ?_, fun hv => ?_⟩
  · exact absurd ((hposition 3 0).1.1 hv).1 (by decide)
  · exact absurd ((hposition 0 13).1.1 hv).2.2 (by decide)
  · exact absurd ((hpath 0 2).1.1 hv).2 (by decide)

end Timeline
end FieldShow
