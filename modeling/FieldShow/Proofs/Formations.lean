import FieldShow.Proofs.Answers

/-!
Questions about a whole formation. Where everybody is on a beat, and who is too close to whom, is
asked of one marcher after the other, and a beat that there is not is turned down by the first of
them. So it is turned down whenever there is a marcher at all.
-/

namespace FieldShow

namespace Timeline

variable {s : Show} {o : Settings} {t : Timeline} {p beat : Nat} {f : Fault} {place : Nat × Nat}

theorem located_iff (t : Timeline) (beat : Nat) :
    (∃ place, t.locate beat = .ok place) ↔ t.scenes ≠ [] ∧ beat ≤ t.total := by
  by_cases hne : t.scenes = []
  · simp [locate_of_empty hne, hne]
  · simp [exists_locate_iff hne, hne]

theorem position_of_unlocated (hloc : t.locate beat = .error f) (hp : p < t.size) :
    t.position p beat = .error f := by
  simp only [position, checkMarcher, if_pos hp, hloc, bind, Except.bind]

theorem exists_positions (h : build s o = .ok t) (hloc : t.locate beat = .ok place) :
    ∃ vs, t.positions beat = .ok vs := by
  obtain ⟨-, sc, hsc, -⟩ := locate_ok hloc
  exact ⟨_, positions_of_locate hloc hsc (build_length_lanes h hsc)⟩

theorem positions_of_unlocated (hloc : t.locate beat = .error f) (hsize : t.size ≠ 0) :
    t.positions beat = .error f := by
  have hne : List.range t.size ≠ [] := by simpa using hsize
  exact mapM_of_error hne fun p hp => position_of_unlocated hloc (List.mem_range.1 hp)

theorem positions_of_deserted (hsize : t.size = 0) (beat : Nat) : t.positions beat = .ok [] := by
  rw [positions, hsize]
  rfl

theorem clashes_of_ok {vs : List Vec} (h : t.positions beat = .ok vs) :
    t.clashes beat = .ok (Clashes.find vs t.least) := by
  rw [clashes, h]
  rfl

theorem clashes_of_error (h : t.positions beat = .error f) : t.clashes beat = .error f := by
  rw [clashes, h]
  rfl

theorem positions_cases (h : build s o = .ok t) (beat : Nat) :
    (∃ vs, t.positions beat = .ok vs ∧ (t.size = 0 ∨ ∃ place, t.locate beat = .ok place)) ∨
      ∃ f, t.positions beat = .error f ∧ t.locate beat = .error f ∧ t.size ≠ 0 := by
  by_cases hsize : t.size = 0
  · exact .inl ⟨[], positions_of_deserted hsize beat, .inl hsize⟩
  cases hloc : t.locate beat with
  | ok place =>
    obtain ⟨vs, hvs⟩ := exists_positions h hloc
    exact .inl ⟨vs, hvs, .inr ⟨place, rfl⟩⟩
  | error f => exact .inr ⟨f, positions_of_unlocated hloc hsize, rfl, hsize⟩

/-- The formation on a beat, and who is too close to whom in it, are told exactly for the beats that
are located, unless there are no marchers: then they are told for every beat. The formation lists
the places of all marchers in their order, and a beat is turned down as it is when it is located. -/
theorem formation_answered_iff (h : build s o = .ok t) (beat : Nat) :
    ((∃ place, t.locate beat = .ok place) ↔ t.scenes ≠ [] ∧ beat ≤ t.total) ∧
    ((∃ vs, t.positions beat = .ok vs) ↔ t.size = 0 ∨ ∃ place, t.locate beat = .ok place) ∧
    ((∃ cs, t.clashes beat = .ok cs) ↔ t.size = 0 ∨ ∃ place, t.locate beat = .ok place) ∧
    (∀ vs, t.positions beat = .ok vs →
      vs.map .ok = (List.range t.size).map (t.position · beat)) ∧
    (∀ f, t.positions beat = .error f → t.locate beat = .error f) ∧
    ∀ f, t.clashes beat = .error f → t.locate beat = .error f := by
  have hlist (vs : List Vec) (hvs : t.positions beat = .ok vs) :
      vs.map .ok = (List.range t.size).map (t.position · beat) := (mapM_eq_ok_iff.1 hvs).symm
  refine ⟨located_iff t beat, ?_⟩
  obtain ⟨vs, hvs, hwhy⟩ | ⟨f, hf, hloc, hsize⟩ := positions_cases h beat
  · have hclashes := clashes_of_ok hvs
    refine ⟨iff_of_true ⟨vs, hvs⟩ hwhy, iff_of_true ⟨_, hclashes⟩ hwhy, hlist, ?_, ?_⟩
    · rw [hvs]
      exact nofun
    · rw [hclashes]
      exact nofun
  · have hclashes := clashes_of_error hf
    have hwhy : ¬(t.size = 0 ∨ ∃ place, t.locate beat = .ok place) := by simp [hsize, hloc]
    refine ⟨iff_of_false ?_ hwhy, iff_of_false ?_ hwhy, hlist, ?_, ?_⟩
    · rw [hf]
      exact nofun
    · rw [hclashes]
      exact nofun
    · rw [hf, hloc]
      rintro _ ⟨⟩
      rfl
    · rw [hclashes, hloc]
      rintro _ ⟨⟩
      rfl

theorem formation_answered_sample : (∃ vs, sample.positions 12 = .ok vs ∧ vs.length = 3) ∧
    (∃ cs, sample.clashes 12 = .ok cs) ∧ ¬∃ vs, sample.positions 13 = .ok vs := by
  have hsize : sample.size = 3 := by decide +kernel
  have htotal : sample.total = 12 := by decide +kernel
  have hne : sample.scenes ≠ [] := by decide +kernel
  obtain ⟨hlocate, hpositions, hclashes, hlist, -⟩ := formation_answered_iff build_sample 12
  obtain ⟨hover, hlate, -⟩ := formation_answered_iff build_sample 13
  have hlast := hlocate.2 ⟨hne, Nat.le_of_eq htotal.symm⟩
  obtain ⟨vs, hvs⟩ := hpositions.2 (.inr hlast)
  refine ⟨⟨vs, hvs, ?_⟩, hclashes.2 (.inr hlast), fun hthirteen => ?_⟩
  · have hlength := congrArg List.length (hlist vs hvs)
    rwa [List.length_map, List.length_map, List.length_range, hsize] at hlength
  · rcases hlate.1 hthirteen with hzero | hlocated
    · omega
    · have hbeat := (hover.1 hlocated).2
      omega

end Timeline

def Show.deserted : Show := ⟨[⟨"deserted", 4, true, [], .empty⟩]⟩

def Timeline.deserted : Timeline := ⟨[⟨"deserted", 0, 4, [], .empty⟩], [0], 4, 0, 16, rfl⟩

namespace Timeline

/-- Without marchers a formation is told on a beat that there is not. -/
theorem positions_deserted : build .deserted {} = .ok deserted ∧
    deserted.locate 5 = .error (.beatOutOfRange 5 4) ∧
    deserted.positions 5 = .ok [] ∧ deserted.clashes 5 = .ok [] ∧
    ¬((∃ vs, deserted.positions 5 = .ok vs) ↔ ∃ place, deserted.locate 5 = .ok place) := by
  have hloc : deserted.locate 5 = .error (.beatOutOfRange 5 4) := rfl
  have hpositions : deserted.positions 5 = .ok [] := positions_of_deserted rfl 5
  refine ⟨eq_ok_of_toOption (by decide +kernel), hloc, hpositions, clashes_of_ok hpositions, ?_⟩
  rw [hpositions, hloc]
  intro hiff
  obtain ⟨place, hplace⟩ := hiff.1 ⟨[], rfl⟩
  cases hplace

end Timeline
end FieldShow
