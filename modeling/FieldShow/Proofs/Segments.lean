import FieldShow.Proofs.Located

/-!
Beats, scenes and segments. A beat of the show and a beat of a scene tell each other, and on each
beat of a scene a marcher is on one segment of its path, as far along as the beats since it began.
-/

namespace FieldShow

namespace Motion

variable {ms : List Motion} {p : Vec}

def beatsAlong (segments : List (Vec × Motion)) : Nat :=
  sumOf (fun segment => segment.2.beats) segments

theorem beatsAlong_cons (q : Vec) (m : Motion) (segments : List (Vec × Motion)) :
    beatsAlong ((q, m) :: segments) = m.beats + beatsAlong segments := rfl

theorem beatsAlong_starts (ms : List Motion) (p : Vec) :
    beatsAlong (starts ms p) = sumOf beats ms := by
  induction ms generalizing p with
  | nil => rfl
  | cons m ms ih => rw [starts, beatsAlong_cons, ih, sumOf_cons]

theorem beatsAlong_take_le {segments : List (Vec × Motion)} {j : Nat} {q : Vec} {m : Motion}
    (hj : segments[j]? = some (q, m)) :
    beatsAlong (segments.take j) + m.beats ≤ beatsAlong segments := by
  have hnext : beatsAlong (segments.take (j + 1)) ≤ beatsAlong segments := sumOf_take_le ..
  rw [List.take_add_one, hj, beatsAlong, Option.toList_some, sumOf_append] at hnext
  exact hnext

theorem positionAfter_starts {j k : Nat} {q : Vec} {m : Motion}
    (hj : (starts ms p)[j]? = some (q, m)) (hk : k < m.beats) :
    positionAfter ms p (beatsAlong ((starts ms p).take j) + k) = ((Walk.mk m q).seek k).pos := by
  induction ms generalizing p j with
  | nil => cases hj
  | cons first rest ih =>
    cases j with
    | zero =>
      obtain ⟨rfl, rfl⟩ : p = q ∧ first = m := Prod.mk.inj (Option.some.inj hj)
      have hbegin : beatsAlong ((starts (first :: rest) p).take 0) + k = k := Nat.zero_add k
      rw [hbegin, positionAfter, if_pos hk]
    | succ j =>
      have hrest := ih hj
      -- the first motion is over, whether or not it takes a beat
      rw [starts, List.take_succ_cons, beatsAlong_cons, Nat.add_assoc, positionAfter,
        if_neg (Nat.not_lt.2 (Nat.le_add_right ..)), Nat.add_sub_cancel_left]
      exact hrest

end Motion

namespace Timeline

variable {s : Show} {o : Settings} {t : Timeline} {sc : Scene} {i k beat : Nat}

theorem locateIn_inside (scenes : List Scene) (beat : Nat) (sc : Scene)
    (hsc : scenes[(locateIn scenes beat).1]? = some sc) :
    (locateIn scenes beat).2 < sc.beats ∨ (locateIn scenes beat).1 + 1 = scenes.length := by
  -- the search goes on to the last scene unless the beat lies inside an earlier one
  induction scenes generalizing beat with
  | nil => cases hsc
  | cons first rest ih =>
    rw [locateIn] at hsc ⊢
    split at hsc
    · next hhere =>
      obtain rfl : first = sc := Option.some.inj hsc
      rw [if_pos hhere]
      rcases hhere with rfl | hlt
      · exact .inr rfl
      · exact .inl hlt
    · next hlater =>
      rw [if_neg hlater]
      exact (ih _ hsc).imp_right (congrArg Nat.succ)

theorem locate_inside (hloc : t.locate beat = .ok (i, k)) (hsc : t.scenes[i]? = some sc) :
    k < sc.beats ∨ i + 1 = t.scenes.length := by
  rw [locate_eq] at hloc
  split at hloc
  · cases hloc
  · split at hloc
    · cases hloc
    · have heq := Except.ok.inj hloc
      have hinside := locateIn_inside t.scenes beat sc
      rw [heq] at hinside
      exact hinside hsc

theorem beatsBefore_length (t : Timeline) : t.beatsBefore t.scenes.length = t.total := by
  rw [beatsBefore, List.take_length, total_eq]

theorem beatsBefore_of_last (hsc : t.scenes[i]? = some sc) (hlast : i + 1 = t.scenes.length) :
    t.beatsBefore i + sc.beats = t.total := by
  rw [← beatsBefore_succ hsc, hlast, beatsBefore_length]

theorem le_of_locate {j : Nat} (hloc : t.locate beat = .ok (i, k)) (hj : j < t.scenes.length)
    (hle : t.beatsBefore j ≤ beat) : j ≤ i := by
  have hne : t.scenes ≠ [] := List.ne_nil_of_length_pos (Nat.zero_lt_of_lt hj)
  rw [locate_eq, if_neg hne] at hloc
  split at hloc
  · cases hloc
  · have heq := Except.ok.inj hloc
    have hscan := le_locateIn hj hle
    rw [heq] at hscan
    exact hscan

theorem exists_locate_iff (hne : t.scenes ≠ []) :
    (∃ place, t.locate beat = .ok place) ↔ beat ≤ t.total := by
  constructor
  · rintro ⟨place, hloc⟩
    rw [locate_eq, if_neg hne] at hloc
    split at hloc
    · cases hloc
    · next htotal => exact Nat.le_of_not_lt htotal
  · exact locate_of_le hne

theorem lt_beats_of_locate (hloc : t.locate beat = .ok (i, k)) (hsc : t.scenes[i]? = some sc)
    (hsum : t.beatsBefore i + k = beat) (hlt : beat < t.total) : k < sc.beats := by
  rcases locate_inside hloc hsc with hk | hlast
  · exact hk
  · have htotal := beatsBefore_of_last hsc hlast
    omega

theorem le_of_sceneStart? {j later : Nat} (hloc : t.locate beat = .ok (i, k))
    (hj : t.sceneStart? j = some later) (hle : later ≤ beat) : j ≤ i := by
  have hlt : j < t.scenes.length := by
    refine Nat.lt_of_not_le fun hge => ?_
    rw [sceneStart?_eq_none_iff.2 hge] at hj
    cases hj
  rw [sceneStart?_of_lt hlt] at hj
  obtain rfl := Option.some.inj hj
  exact le_of_locate hloc hlt hle

theorem locate_total (hne : t.scenes ≠ []) : ∃ last, t.scenes.getLast? = some last ∧
    t.locate t.total = .ok (t.scenes.length - 1, last.beats) := by
  obtain ⟨last, hlast⟩ := Option.isSome_iff_exists.1 (List.getLast?_isSome.2 hne)
  refine ⟨last, hlast, ?_⟩
  rw [List.getLast?_eq_getElem?] at hlast
  have hpos := List.length_pos_iff.2 hne
  have hend : t.scenes.length - 1 + 1 = t.scenes.length := Nat.sub_add_cancel hpos
  rw [← beatsBefore_of_last hlast hend]
  exact locate_of_scene hlast (.inr ⟨hend, Nat.le_refl _⟩)

/-- Beats up to the total are located, each in the last scene that has begun, and there before its
end unless the show is over. The other way round every beat that a scene has is located in it, so
that a scene without beats is only found if nothing comes after it. -/
theorem locate_beats (hne : t.scenes ≠ []) :
    t.total < UInt32.size ∧
    (∀ beat, (∃ place, t.locate beat = .ok place) ↔ beat ≤ t.total) ∧
    (∀ beat i k, t.locate beat = .ok (i, k) → ∃ start sc, t.sceneStart? i = some start ∧
      t.scenes[i]? = some sc ∧ start + k = beat ∧ (beat < t.total → k < sc.beats) ∧
      (sc.beats = 0 → i + 1 = t.scenes.length) ∧
      ∀ j later, t.sceneStart? j = some later → later ≤ beat → j ≤ i) ∧
    (∃ last, t.scenes.getLast? = some last ∧
      t.locate t.total = .ok (t.scenes.length - 1, last.beats)) ∧
    ∀ i start sc, t.sceneStart? i = some start → t.scenes[i]? = some sc →
      ∀ k < sc.beats, t.locate (start + k) = .ok (i, k) := by
  refine ⟨t.total_lt, fun beat => exists_locate_iff hne, ?_, locate_total hne, ?_⟩
  · intro beat i k hloc
    obtain ⟨hsum, sc, hsc, -⟩ := locate_ok hloc
    have hlast (hzero : sc.beats = 0) : i + 1 = t.scenes.length :=
      (locate_inside hloc hsc).resolve_left (by omega)
    exact ⟨_, sc, sceneStart?_eq hsc, hsc, hsum, lt_beats_of_locate hloc hsc hsum, hlast,
      fun j later => le_of_sceneStart? hloc⟩
  · intro i start sc hstart hsc k hk
    obtain rfl := Option.some.inj (hstart.symm.trans (sceneStart?_eq hsc))
    exact locate_of_scene hsc (.inl hk)

theorem locate_beats_hurried : Timeline.hurried.locate 0 = .ok (2, 0) ∧
    Timeline.hurried.locate 4 = .ok (2, 4) ∧ ¬∃ place, Timeline.hurried.locate 5 = .ok place := by
  have hne : Timeline.hurried.scenes ≠ [] := by decide +kernel
  have htotal : Timeline.hurried.total = 4 := by decide +kernel
  obtain ⟨-, hok, -, ⟨last, hlast, hend⟩, hinside⟩ := locate_beats hne
  obtain ⟨sc, hsc, hbeats⟩ : ∃ sc, Timeline.hurried.scenes[2]? = some sc ∧ sc.beats = 4 := by
    have hsome : ∃ sc ∈ Timeline.hurried.scenes[2]?, sc.beats = 4 := by decide +kernel
    exact hsome
  have hstart : Timeline.hurried.sceneStart? 2 = some 0 := by decide +kernel
  have hlength : Timeline.hurried.scenes.length = 3 := by decide +kernel
  refine ⟨hinside 2 0 sc hstart hsc 0 (by omega), ?_, fun hplace => ?_⟩
  · rw [List.getLast?_eq_getElem?, hlength, hsc] at hlast
    obtain rfl := Option.some.inj hlast
    rw [htotal, hlength, hbeats] at hend
    exact hend
  · have hle := (hok 5).1 hplace
    omega

theorem path_of_scene {p : Nat} {l : Lane} (hp : p < t.size) (hsc : t.scenes[i]? = some sc)
    (hl : sc.lanes[p]? = some l) : t.path p i = .ok (Motion.starts l.routine.motions l.start) := by
  simp only [path, checkMarcher, if_pos hp, scene, hsc, lane, hl, bind, Except.bind, pure,
    Except.pure]

/-- On a beat of a scene a marcher is where the segment of its path that is under way has led by
then, and these segments fill the scene. -/
theorem position_on_path (h : build s o = .ok t) {p : Nat} (hp : p < t.size)
    (hsc : t.scenes[i]? = some sc) :
    ∃ start segments, t.sceneStart? i = some start ∧ t.path p i = .ok segments ∧
      Motion.beatsAlong segments = sc.beats ∧
      ∀ j q m, segments[j]? = some (q, m) → ∀ k < m.beats,
        t.position p (start + Motion.beatsAlong (segments.take j) + k) =
          .ok ((Walk.mk m q).seek k).pos ∧
        t.locate (start + Motion.beatsAlong (segments.take j) + k) =
          .ok (i, Motion.beatsAlong (segments.take j) + k) := by
  have hlength : sc.lanes.length = t.size := build_length_lanes h hsc
  obtain ⟨l, hl⟩ : ∃ l, sc.lanes[p]? = some l :=
    ⟨_, List.getElem?_eq_getElem (by rwa [hlength])⟩
  have hbudget := build_onBudget h (List.mem_of_getElem? hsc) (List.mem_of_getElem? hl)
  have htotal : Motion.beatsAlong (Motion.starts l.routine.motions l.start) = sc.beats := by
    rw [Motion.beatsAlong_starts, hbudget.total]
  refine ⟨_, _, sceneStart?_eq hsc, path_of_scene hp hsc hl, htotal, fun j q m hj k hk => ?_⟩
  have hupto := Motion.beatsAlong_take_le hj
  have hwithin : Motion.beatsAlong ((Motion.starts l.routine.motions l.start).take j) + k <
      sc.beats := by omega
  have hloc := locate_of_scene hsc (.inl hwithin)
  have hpos := position_of_locate hloc hsc hp hl
  rw [Motion.positionAfter_starts hj hk] at hpos
  rw [Nat.add_assoc]
  exact ⟨hpos, hloc⟩

theorem position_on_path_hurried : ∃ segments, Timeline.hurried.path 1 2 = .ok segments ∧
    ∃ q m, segments[0]? = some (q, m) ∧
      Timeline.hurried.position 1 3 = .ok ((Walk.mk m q).seek 3).pos ∧
      Timeline.hurried.locate 3 = .ok (2, 3) := by
  have hp : 1 < Timeline.hurried.size := by decide +kernel
  obtain ⟨sc, hsc⟩ : ∃ sc, Timeline.hurried.scenes[2]? = some sc :=
    Option.isSome_iff_exists.1 (by decide +kernel)
  have hstart : Timeline.hurried.sceneStart? 2 = some 0 := by decide +kernel
  have hfirst : ∃ segment ∈ ((Timeline.hurried.path 1 2).toOption.bind (·[0]?)),
      3 < segment.2.beats := by decide +kernel
  obtain ⟨start, segments, hstart', hpath, -, hagree⟩ := position_on_path build_hurried hp hsc
  obtain rfl := Option.some.inj (hstart.symm.trans hstart')
  rw [hpath] at hfirst
  obtain ⟨⟨q, m⟩, hj, hk⟩ := hfirst
  exact ⟨segments, hpath, q, m, hj, hagree 0 q m hj 3 hk⟩

end Timeline
end FieldShow
