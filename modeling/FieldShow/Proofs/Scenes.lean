import FieldShow.Proofs.Marked
import FieldShow.Proofs.Schedule
import FieldShow.Proofs.Turns

/-!
A built timeline, scene by scene. Every scene has a lane for each marcher, which shows the outcome
of the marcher's turn, and its markers are those of all these outcomes together.
-/

namespace FieldShow

section

variable {α β ε : Type} {f : α → Except ε β}

theorem mapM_eq_ok_iff {l : List α} {bs : List β} : l.mapM f = .ok bs ↔ l.map f = bs.map .ok := by
  induction l generalizing bs with
  | nil => cases bs <;> simp [pure, Except.pure]
  | cons a l ih =>
    rw [List.mapM_cons, List.map_cons]
    cases ha : f a with
    | error e => cases bs <;> simp [bind, Except.bind]
    | ok b =>
      cases hl : l.mapM f with
      | error e =>
        have hnone (cs : List β) : l.map f ≠ cs.map .ok := by simp [← ih, hl]
        cases bs <;> simp [bind, Except.bind, hnone]
      | ok cs =>
        have hcs : l.map f = cs.map .ok := ih.1 hl
        have hinj : ∀ ds : List β, (cs.map Except.ok : List (Except ε β)) = ds.map .ok ↔ cs = ds :=
          fun _ => List.map_inj_right (fun _ _ => Except.ok.inj)
        cases bs <;> simp [bind, Except.bind, pure, Except.pure, hcs, hinj]

theorem mapM_ok {g : α → β} {l : List α} (h : ∀ a ∈ l, f a = .ok (g a)) :
    l.mapM f = .ok (l.map g) := by
  rw [mapM_eq_ok_iff, List.map_map]
  exact List.map_congr_left h

theorem mapM_of_error {e : ε} {l : List α} (hne : l ≠ []) (h : ∀ a ∈ l, f a = .error e) :
    l.mapM f = .error e := by
  obtain ⟨a, l, rfl⟩ := List.exists_cons_of_ne_nil hne
  rw [List.mapM_cons, h a (.head _)]
  rfl

end

theorem getElem?_filterMap {α β : Type} {f : α → Option β} {l : List α}
    (h : ∀ a ∈ l, ∃ b, f a = some b) (p : Nat) : (l.filterMap f)[p]? = l[p]?.bind f := by
  induction l generalizing p with
  | nil => rfl
  | cons a l ih =>
    obtain ⟨⟨b, hb⟩, hl⟩ := List.forall_mem_cons.1 h
    rw [List.filterMap_cons_some hb]
    cases p with
    | zero => simp [hb]
    | succ p => simpa using ih hl p

namespace Show

def turn? (s : Show) (point k : Nat) : Option Turn := (s.turns point .empty s.performed)[k]?

def rows (s : Show) : List (List Outcome) :=
  (List.range s.size).map fun point => (s.turns point .empty s.performed).map (·.outcome .empty)

def column (s : Show) (k : Nat) : List Outcome :=
  (List.range s.size).filterMap fun point => (s.turn? point k).map (·.outcome .empty)

theorem mapM_outcomes {s : Show} (h : s.Valid) :
    (List.range s.size).mapM (fun point => s.outcomes point .empty s.performed) = .ok s.rows :=
  mapM_ok fun _ hp => outcomes_eq_turns (h.places (List.mem_range.1 hp)) .empty

theorem filterMap_rows (s : Show) (k : Nat) : s.rows.filterMap (·[k]?) = s.column k := by
  simp only [rows, column, List.filterMap_map]
  congr 1
  funext point
  simp [turn?]

theorem Valid.turn?_eq {s : Show} (h : s.Valid) {point k i : Nat} {sheet : Sheet}
    (hpoint : point < s.size) (hk : s.performed[k]? = some (i, sheet)) :
    ∃ home memory, sheet.placements[point]? = some home ∧
      s.turn? point k = some (s.turn i point sheet home home.symbol memory) :=
  getElem?_turns (h.places hpoint) .empty hk

theorem Valid.getElem?_column {s : Show} (h : s.Valid) {point k i : Nat} {sheet : Sheet}
    (hpoint : point < s.size) (hk : s.performed[k]? = some (i, sheet)) :
    (s.column k)[point]? = (s.turn? point k).map (·.outcome .empty) := by
  rw [column, getElem?_filterMap, List.getElem?_range hpoint, Option.bind_some]
  intro q hq
  obtain ⟨home, memory, -, hturn⟩ := h.turn?_eq (List.mem_range.1 hq) hk
  exact ⟨_, by rw [hturn]; rfl⟩

theorem Valid.length_column {s : Show} (h : s.Valid) {k i : Nat} {sheet : Sheet}
    (hk : s.performed[k]? = some (i, sheet)) : (s.column k).length = s.size := by
  rw [column, List.filterMap_length_eq_length.2, List.length_range]
  intro q hq
  obtain ⟨home, memory, -, hturn⟩ := h.turn?_eq (List.mem_range.1 hq) hk
  simp [hturn]

theorem exists_mem_column {s : Show} {k : Nat} {P : Outcome → Prop} :
    (∃ o ∈ s.column k, P o) ↔ ∃ q < s.size, ∃ turn ∈ s.turn? q k, P (turn.outcome .empty) := by
  constructor
  · rintro ⟨o, ho, hP⟩
    obtain ⟨q, hq, hmap⟩ := List.mem_filterMap.1 ho
    obtain ⟨turn, hturn, rfl⟩ := Option.map_eq_some_iff.1 hmap
    exact ⟨q, List.mem_range.1 hq, turn, hturn, hP⟩
  · rintro ⟨q, hq, turn, hturn, hP⟩
    exact ⟨_, List.mem_filterMap.2 ⟨q, List.mem_range.2 hq, by rw [hturn]; rfl⟩, hP⟩

theorem forall_mem_column {s : Show} {k : Nat} {P : Outcome → Prop} :
    (∀ o ∈ s.column k, P o) ↔ ∀ q < s.size, ∀ turn ∈ s.turn? q k, P (turn.outcome .empty) := by
  have := not_congr (exists_mem_column (s := s) (k := k) (P := fun o => ¬P o))
  simpa using this

end Show

theorem Scene.getElem?_assemble (sheets : List (Nat × Sheet)) (rows : List (List Outcome))
    (k : Nat) : (assemble sheets rows)[k]? =
      sheets[k]?.map fun p => .of p.1 p.2 (rows.filterMap (·[k]?)) := by
  induction sheets generalizing rows k with
  | nil => rfl
  | cons p sheets ih =>
    cases k with
    | zero =>
      simp only [assemble, List.getElem?_cons_zero, Option.map_some]
      congr 3
      funext row
      exact List.head?_eq_getElem?
    | succ k =>
      have tails : (fun row : List Outcome => row[k]?) ∘ List.tail = fun row => row[k + 1]? :=
        funext fun _ => List.getElem?_tail
      simp only [assemble, List.getElem?_cons_succ, ih, List.filterMap_map, tails]

theorem Scene.length_assemble (sheets : List (Nat × Sheet)) (rows : List (List Outcome)) :
    (assemble sheets rows).length = sheets.length := by
  induction sheets generalizing rows with
  | nil => rfl
  | cons p sheets ih => rw [assemble, List.length_cons, List.length_cons, ih]

namespace Timeline

variable {s : Show} {o : Settings} {t : Timeline}

theorem build_ok (h : build s o = .ok t) :
    s.Valid ∧ t.scenes = Scene.assemble s.performed s.rows ∧ t.size = s.size ∧
      t.least = o.least := by
  simp only [build, bind, Except.bind, throw, throwThe, MonadExceptOf.throw,
    Show.validate] at h
  split at h
  · cases h
  · cases hfault : s.fault? with
    | some f => simp [hfault] at h
    | none =>
      have hvalid := (Show.fault?_eq_none_iff s).1 hfault
      simp only [hfault, Show.mapM_outcomes hvalid] at h
      split at h
      · cases h
      · exact ⟨hvalid, ofScenes_ok h⟩

theorem build_size (h : build s o = .ok t) : t.size = s.size := (build_ok h).2.2.1

theorem build_scene (h : build s o = .ok t) (k : Nat) :
    t.scenes[k]? = s.performed[k]?.map fun p => .of p.1 p.2 (s.column k) := by
  rw [(build_ok h).2.1, Scene.getElem?_assemble, Show.filterMap_rows]

theorem length_scenes (h : build s o = .ok t) : t.scenes.length = s.performed.length := by
  rw [(build_ok h).2.1, Scene.length_assemble]

theorem build_performed (h : build s o = .ok t) {k : Nat} {sc : Scene}
    (hk : t.scenes[k]? = some sc) :
    ∃ i sheet, s.performed[k]? = some (i, sheet) ∧ sc = .of i sheet (s.column k) := by
  rw [build_scene h, Option.map_eq_some_iff] at hk
  obtain ⟨⟨i, sheet⟩, hp, rfl⟩ := hk
  exact ⟨i, sheet, hp, rfl⟩

theorem build_turn (h : build s o = .ok t) {k : Nat} {sc : Scene} (hk : t.scenes[k]? = some sc)
    {p : Nat} (hp : p < t.size) : ∃ turn, s.turn? p k = some turn := by
  obtain ⟨i, sheet, hperf, -⟩ := build_performed h hk
  obtain ⟨home, memory, -, hturn⟩ := (build_ok h).1.turn?_eq (build_size h ▸ hp) hperf
  exact ⟨_, hturn⟩

theorem build_lane (h : build s o = .ok t) {k : Nat} {sc : Scene} (hk : t.scenes[k]? = some sc)
    {p : Nat} (hp : p < t.size) {turn : Turn} (hturn : s.turn? p k = some turn) :
    turn.cue.point = p ∧ turn.beats = sc.beats ∧
      sc.lanes[p]? = some ⟨turn.cue.home.position, (turn.outcome .empty).routine⟩ := by
  obtain ⟨i, sheet, hperf, rfl⟩ := build_performed h hk
  rw [build_size h] at hp
  have hvalid := (build_ok h).1
  obtain ⟨home, memory, hhome, heq⟩ := hvalid.turn?_eq hp hperf
  obtain rfl := Option.some.inj (hturn.symm.trans heq)
  refine ⟨rfl, rfl, ?_⟩
  simp only [Scene.of, List.getElem?_zipWith, hhome, hvalid.getElem?_column hp hperf, hturn]
  rfl

theorem build_length_lanes (h : build s o = .ok t) {k : Nat} {sc : Scene}
    (hk : t.scenes[k]? = some sc) : sc.lanes.length = t.size := by
  obtain ⟨i, sheet, hperf, rfl⟩ := build_performed h hk
  have hvalid := (build_ok h).1
  have hmem := List.mem_of_getElem? (Show.mem_performed (List.mem_of_getElem? hperf))
  simp [Scene.of, hvalid.length_column hperf, (hvalid sheet hmem).1, build_size h]

theorem build_start (h : build s o = .ok t) {k i p : Nat} {sheet : Sheet}
    (hperf : s.performed[k]? = some (i, sheet)) (hp : p < t.size) :
    ((Scene.of i sheet (s.column k)).lanes[p]?).map Lane.start =
      (sheet.placements[p]?).map (·.position) := by
  rw [build_size h] at hp
  have hvalid := (build_ok h).1
  obtain ⟨home, memory, hhome, hturn⟩ := hvalid.turn?_eq hp hperf
  simp [Scene.of, List.getElem?_zipWith, hhome, hvalid.getElem?_column hp hperf, hturn]

theorem build_next (h : build s o = .ok t) {k p : Nat} {sc : Scene}
    (hk : t.scenes[k]? = some sc) (hp : p < t.size) {turn : Turn}
    (hturn : s.turn? p k = some turn) :
    turn.cue.next = (t.scenes[k + 1]?).bind fun sc => (sc.lanes[p]?).map Lane.start := by
  obtain ⟨i, sheet, hperf, -⟩ := build_performed h hk
  obtain ⟨home, memory, -, heq⟩ := (build_ok h).1.turn?_eq (build_size h ▸ hp) hperf
  obtain rfl := Option.some.inj (hturn.symm.trans heq)
  change s.placeAfter? i p = _
  rw [Show.placeAfter?, Show.nextPerformed?_eq hperf, build_scene h]
  cases hnext : s.performed[k + 1]? with
  | none => rfl
  | some q => exact (build_start h hnext hp).symm

theorem build_marked (h : build s o = .ok t) {k : Nat} {sc : Scene} (hk : t.scenes[k]? = some sc)
    (kind : Mistake) (p : Nat) : p ∈ sc.markers.points kind ↔
      ∃ q < t.size, ∃ turn ∈ s.turn? q k, p ∈ (turn.outcome .empty).markers.points kind := by
  obtain ⟨i, sheet, -, rfl⟩ := build_performed h hk
  rw [Scene.of, Markers.mem_points_foldl, Show.exists_mem_column, build_size h]
  simp

theorem build_unmarked (h : build s o = .ok t) {k : Nat} {sc : Scene}
    (hk : t.scenes[k]? = some sc) (kind : Mistake) : sc.markers.get? kind = none ↔
      ∀ q < t.size, ∀ turn ∈ s.turn? q k, (turn.outcome .empty).markers.get? kind = none := by
  obtain ⟨i, sheet, -, rfl⟩ := build_performed h hk
  rw [Scene.of, Markers.get?_foldl_eq_none, Show.forall_mem_column, build_size h]
  simp [Markers.get?_empty]

theorem eq_ok_of_toOption {ε α : Type} {e : Except ε α} {a : α} (h : e.toOption = some a) :
    e = .ok a := by
  cases e with
  | error => cases h
  | ok b => exact congrArg _ (Option.some.inj h)

def sample : Timeline := (build .sample {}).toOption.get (by decide +kernel)

theorem build_sample : build .sample {} = .ok sample :=
  eq_ok_of_toOption (Option.some_get _).symm

end Timeline
end FieldShow
