import FieldShow.Proofs.Scenes

/-!
Which shows can be worked out. Only four checks can turn one down, each of them before or after the
marchers have their turns; whatever their programs say, none of the turns fails.
-/

namespace FieldShow

theorem Sheet.kind_strayFault? {index i : Nat} {name : String} {ps : List Placement} {f : Fault}
    (h : strayFault? index name i ps = some f) : f.kind = .validation := by
  induction ps generalizing i with
  | nil => cases h
  | cons p ps ih =>
    rw [strayFault?] at h
    split at h
    · obtain rfl := Option.some.inj h
      rfl
    · exact ih h

theorem Sheet.kind_fault? {size index : Nat} {s : Sheet} {f : Fault}
    (h : s.fault? size index = some f) : f.kind = .validation := by
  rw [fault?] at h
  split at h
  · obtain rfl := Option.some.inj h
    rfl
  · exact kind_strayFault? h

theorem Show.kind_sheetsFault? {size i : Nat} {sheets : List Sheet} {f : Fault}
    (h : sheetsFault? size i sheets = some f) : f.kind = .validation := by
  induction sheets generalizing i with
  | nil => cases h
  | cons s sheets ih =>
    rw [sheetsFault?, Option.or_eq_some_iff] at h
    obtain hfirst | ⟨-, hrest⟩ := h
    · exact Sheet.kind_fault? hfirst
    · exact ih hrest

def Show.beats (s : Show) : Nat :=
  sumOf (fun sheet => sheet.beats.toNat) (s.sheets.filter (·.performed))

theorem Show.map_performed (s : Show) :
    s.performed.map Prod.snd = s.sheets.filter (·.performed) := by
  have hsheets (sheets : List Sheet) (n : Nat) :
      ((sheets.zipIdx n).filter (·.1.performed)).map (·.1) = sheets.filter (·.performed) := by
    induction sheets generalizing n with
    | nil => rfl
    | cons sheet sheets ih =>
      rw [List.zipIdx_cons, List.filter_cons, List.filter_cons]
      split
      · rw [List.map_cons, ih]
      · exact ih (n + 1)
  rw [performed, List.map_map]
  exact hsheets s.sheets 0

theorem Scene.sumOf_assemble (sheets : List (Nat × Sheet)) (rows : List (List Outcome)) :
    sumOf Scene.beats (assemble sheets rows) = sumOf (fun p => p.2.beats.toNat) sheets := by
  induction sheets generalizing rows with
  | nil => rfl
  | cons p sheets ih =>
    rw [assemble, sumOf_cons, sumOf_cons, ih]
    rfl

theorem Show.sumOf_assemble (s : Show) (rows : List (List Outcome)) :
    sumOf Scene.beats (Scene.assemble s.performed rows) = s.beats := by
  rw [Scene.sumOf_assemble, beats, ← map_performed, sumOf_map]

namespace Timeline

theorem build_eq (s : Show) (o : Settings) : build s o =
    if o.least < 0 then .error .negativeThreshold
    else match s.fault? with
      | some f => .error f
      | none =>
        if o.parallel = true ∧ o.threads = some 0 then .error .noThreads
        else ofScenes (Scene.assemble s.performed s.rows) s.size o.least := by
  simp only [build, bind, Except.bind, throw, throwThe, MonadExceptOf.throw,
    Show.validate]
  split
  · rfl
  · cases hfault : s.fault? with
    | some f => rfl
    | none =>
      have hvalid := s.fault?_eq_none_iff.1 hfault
      simp only [Show.mapM_outcomes hvalid]

/-- A show is worked out exactly if nobody asked for a negative distance or for no threads, it is
valid and 32 bits hold its beats. Whatever else may come up while it is worked out is a mistake that
is noted, not a fault. -/
theorem build_ok_iff (s : Show) (o : Settings) :
    ((∃ t, build s o = .ok t) ↔ 0 ≤ o.least ∧ s.Valid ∧
      ¬(o.parallel = true ∧ o.threads = some 0) ∧ s.beats ≤ 4294967295) ∧
    ∀ f, build s o = .error f → f.kind = .validation := by
  rw [build_eq]
  by_cases hleast : o.least < 0
  · have hneg : ¬0 ≤ o.least := Int32.not_le.2 hleast
    simp [hleast, hneg, Fault.kind]
  rw [if_neg hleast]
  have hleast : 0 ≤ o.least := Int32.not_lt.1 hleast
  cases hfault : s.fault? with
  | some f =>
    have hinvalid : ¬s.Valid := by simp [← s.fault?_eq_none_iff, hfault]
    have hkind : f.kind = .validation := Show.kind_sheetsFault? hfault
    simp [hinvalid, hkind]
  | none =>
    have hvalid : s.Valid := s.fault?_eq_none_iff.1 hfault
    by_cases hthreads : o.parallel = true ∧ o.threads = some 0
    · simp [hthreads, Fault.kind]
    by_cases hbeats : s.beats < UInt32.size
    · have hle : s.beats ≤ 4294967295 := Nat.le_of_lt_succ hbeats
      obtain ⟨t, ht⟩ := ofScenes_of_lt (s.sumOf_assemble s.rows ▸ hbeats) s.size o.least
      simp [hthreads, ht, hleast, hvalid, hle]
    · have hgt : ¬s.beats ≤ 4294967295 := fun h => hbeats (Nat.lt_succ_of_le h)
      have hsum := s.sumOf_assemble s.rows ▸ Nat.le_of_not_lt hbeats
      have hmany := ofScenes_of_le hsum s.size o.least
      simp [hthreads, hmany, hgt, Fault.kind]

theorem build_ok_iff_sample : (∃ t, build .sample {} = .ok t) ∧
    build .sample { parallel := true, threads := some 0 } = .error .noThreads ∧
      Fault.noThreads.kind = .validation := by
  have hvalid : Show.sample.Valid := by decide +kernel
  have hbeats : Show.sample.beats ≤ 4294967295 := by decide +kernel
  have hfault : build .sample { parallel := true, threads := some 0 } = .error .noThreads := by
    rw [build_eq, Show.sample.fault?_eq_none_iff.2 hvalid]
    rfl
  exact ⟨(build_ok_iff _ _).1.2 ⟨by decide, hvalid, by decide, hbeats⟩, hfault,
    (build_ok_iff _ _).2 _ hfault⟩

end Timeline
end FieldShow
