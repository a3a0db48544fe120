import FieldShow.Proofs.Scenes

/-!
Beats of the whole show and beats of a scene. Where a beat is located, the beats of the scenes
before it and the beat there add up to it.
-/

namespace FieldShow
namespace Timeline

variable {t : Timeline} {scenes : List Scene} {beat i k : Nat}

theorem sceneStart?_eq {sc : Scene} (h : t.scenes[i]? = some sc) :
    t.sceneStart? i = some (t.beatsBefore i) :=
  sceneStart?_of_lt (List.getElem?_eq_some_iff.1 h).1

theorem locate_ok (h : t.locate beat = .ok (i, k)) :
    t.beatsBefore i + k = beat ∧ ∃ sc, t.scenes[i]? = some sc ∧ k ≤ sc.beats := by
  rw [locate_eq] at h
  split at h
  · cases h
  · next hne =>
    split at h
    · cases h
    · next htotal =>
      have heq := Except.ok.inj h
      have hsum := locateIn_sum t.scenes beat
      have hscene := locateIn_scene hne (t.total_eq ▸ Nat.le_of_not_lt htotal)
      rw [heq] at hsum hscene
      exact ⟨hsum, hscene⟩

theorem locate_of_le (hne : t.scenes ≠ []) (h : beat ≤ t.total) : ∃ q, t.locate beat = .ok q :=
  ⟨_, by rw [locate_eq, if_neg hne, if_neg (Nat.not_lt.2 h)]⟩

theorem beatsBefore_le_total (t : Timeline) (i : Nat) : t.beatsBefore i ≤ t.total := by
  rw [total_eq]
  exact sumOf_take_le ..

theorem beatsBefore_succ {sc : Scene} (h : t.scenes[i]? = some sc) :
    t.beatsBefore (i + 1) = t.beatsBefore i + sc.beats := by
  rw [beatsBefore, List.take_add_one, h, Option.toList_some, sumOf_append]
  rfl

theorem locateIn_of_scene {sc : Scene} (hsc : scenes[i]? = some sc)
    (hk : k < sc.beats ∨ i + 1 = scenes.length) :
    locateIn scenes (sumOf Scene.beats (scenes.take i) + k) = (i, k) := by
  induction scenes generalizing i with
  | nil => cases hsc
  | cons first rest ih =>
    cases i with
    | zero =>
      obtain rfl : first = sc := Option.some.inj hsc
      have hhere : rest = [] ∨ k < first.beats :=
        hk.elim .inr fun hlast => .inl (List.length_eq_zero_iff.1 (Nat.succ.inj hlast).symm)
      rw [List.take_zero, sumOf_nil, Nat.zero_add, locateIn, if_pos hhere]
    | succ i =>
      -- the first scene is over by then and takes off its own beats
      have hlt : i < rest.length := Nat.lt_of_succ_lt_succ (List.getElem?_eq_some_iff.1 hsc).1
      have hne : rest ≠ [] := List.ne_nil_of_length_pos (Nat.zero_lt_of_lt hlt)
      have hlater : ¬(rest = [] ∨ sumOf Scene.beats ((first :: rest).take (i + 1)) + k <
          first.beats) := by
        rw [List.take_succ_cons, sumOf_cons]
        exact fun h => h.elim hne (by omega)
      have hbeat : sumOf Scene.beats ((first :: rest).take (i + 1)) + k - first.beats =
          sumOf Scene.beats (rest.take i) + k := by
        rw [List.take_succ_cons, sumOf_cons]
        omega
      rw [locateIn, if_neg hlater, hbeat, ih hsc (hk.imp_right Nat.succ.inj)]

theorem locate_of_scene {sc : Scene} (hsc : t.scenes[i]? = some sc)
    (hk : k < sc.beats ∨ (i + 1 = t.scenes.length ∧ k ≤ sc.beats)) :
    t.locate (t.beatsBefore i + k) = .ok (i, k) := by
  have hlt := (List.getElem?_eq_some_iff.1 hsc).1
  have hne : t.scenes ≠ [] := List.ne_nil_of_length_pos (Nat.zero_lt_of_lt hlt)
  have htotal : t.beatsBefore i + k ≤ t.total := by
    have hsum := beatsBefore_succ hsc
    have hall := t.beatsBefore_le_total (i + 1)
    omega
  rw [locate_eq, if_neg hne, if_neg (Nat.not_lt.2 htotal)]
  exact congrArg Except.ok (locateIn_of_scene hsc (hk.imp_right And.left))

theorem le_locateIn (hi : i < scenes.length) (h : sumOf Scene.beats (scenes.take i) ≤ beat) :
    i ≤ (locateIn scenes beat).1 := by
  induction scenes generalizing i beat with
  | nil => exact absurd hi (Nat.not_lt_zero i)
  | cons sc rest ih =>
    cases i with
    | zero => exact Nat.zero_le _
    | succ i =>
      rw [List.length_cons] at hi
      rw [List.take_succ_cons, sumOf_cons] at h
      have hne : rest ≠ [] := List.ne_nil_of_length_pos (by omega)
      have hlater : ¬(rest = [] ∨ beat < sc.beats) := fun h => h.elim hne (by omega)
      rw [locateIn, if_neg hlater]
      exact Nat.succ_le_succ (ih (by omega) (by omega))

theorem beatsBefore_mono {j : Nat} (h : i ≤ j) : t.beatsBefore i ≤ t.beatsBefore j := by
  have htake : t.scenes.take i = (t.scenes.take j).take i := by
    rw [List.take_take, Nat.min_eq_left h]
  rw [beatsBefore, htake]
  exact sumOf_take_le ..

theorem locate_beatsBefore {sc : Scene} (hsc : t.scenes[i]? = some sc) :
    ∃ j there, t.locate (t.beatsBefore i) = .ok (j, 0) ∧ i ≤ j ∧ t.scenes[j]? = some there := by
  have hi := (List.getElem?_eq_some_iff.1 hsc).1
  have hne : t.scenes ≠ [] := List.ne_nil_of_mem (List.mem_of_getElem? hsc)
  have htotal := t.beatsBefore_le_total i
  have hloc : t.locate (t.beatsBefore i) = .ok (locateIn t.scenes (t.beatsBefore i)) := by
    rw [locate_eq, if_neg hne, if_neg (Nat.not_lt.2 htotal)]
  have hle : i ≤ (locateIn t.scenes (t.beatsBefore i)).1 := le_locateIn hi (Nat.le_refl _)
  generalize locateIn t.scenes (t.beatsBefore i) = q at hloc hle
  obtain ⟨hsum, there, hthere, -⟩ := locate_ok hloc
  have hzero : q.2 = 0 := by
    have hmono := beatsBefore_mono (t := t) hle
    omega
  exact ⟨q.1, there, hzero ▸ hloc, hle, hthere⟩

theorem locate_of_empty (h : t.scenes = []) (beat : Nat) : t.locate beat = .error .emptyTimeline :=
  if_pos h

theorem position_of_locate {sc : Scene} {l : Lane} {p : Nat} (hloc : t.locate beat = .ok (i, k))
    (hsc : t.scenes[i]? = some sc) (hp : p < t.size) (hl : sc.lanes[p]? = some l) :
    t.position p beat = .ok (Motion.positionAfter l.routine.motions l.start k) := by
  simp only [position, checkMarcher, if_pos hp, hloc, scene, hsc, lane, hl, bind, Except.bind,
    pure, Except.pure]

theorem positions_of_locate {sc : Scene} (hloc : t.locate beat = .ok (i, k))
    (hsc : t.scenes[i]? = some sc) (hlen : sc.lanes.length = t.size) :
    t.positions beat =
      .ok (sc.lanes.map fun l => Motion.positionAfter l.routine.motions l.start k) := by
  have hpos : ∀ p ∈ List.range t.size, t.position p beat = .ok ((sc.lanes[p]?.map fun l =>
      Motion.positionAfter l.routine.motions l.start k).getD 0) := by
    intro p hp
    have hp := List.mem_range.1 hp
    have hl : sc.lanes[p]? = some sc.lanes[p] := List.getElem?_eq_getElem (hlen ▸ hp)
    rw [position_of_locate hloc hsc hp hl, hl]
    rfl
  rw [positions, mapM_ok hpos]
  congr 1
  apply List.ext_getElem
  · simp [hlen]
  · intro p _ hp
    rw [List.length_map] at hp
    simp [List.getElem?_eq_getElem hp]

end Timeline
end FieldShow
