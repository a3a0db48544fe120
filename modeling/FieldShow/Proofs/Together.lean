import Mathlib.Data.List.Forall2
import FieldShow.Proofs.Scenes
import FieldShow.Proofs.Sharing

/-!
A show worked out sheet by sheet. On each sheet the marchers take their turns in some order, all
with one memory, which lasts through the whole show, and with one table of mistakes for the sheet.
A built timeline, marcher by marcher through all sheets, comes to the same.
-/

namespace FieldShow

/-- What has been worked out on a sheet: routines with the marchers to whom they belong. -/
structure Gathering where
  routines : List (Nat × Routine)
  memory : Memory
  markers : Markers

namespace Show

def join (s : Show) (index : Nat) (sheet : Sheet) (g : Gathering) (point : Nat) :
    Except Fault Gathering := do
  let home ← sheet.placement point
  let o ← s.rehearse index point home.symbol g.memory g.markers
  return ⟨g.routines ++ [(point, o.routine)], o.memory, o.markers⟩

/-- Sheet by sheet, on each one the marchers in the order that its index has. -/
def tour (s : Show) (orders : Nat → List Nat) :
    Memory → List (Nat × Sheet) → Except Fault (List Gathering)
  | _, [] => .ok []
  | memory, (i, sheet) :: rest => do
    let g ← (orders i).foldlM (s.join i sheet) ⟨[], memory, .empty⟩
    return g :: (← s.tour orders g.memory rest)

end Show

def Scene.routines (sc : Scene) : List (Nat × Routine) :=
  sc.lanes.zipIdx.map fun q => (q.2, q.1.routine)

def Turn.part (turn : Turn) : Nat × Routine :=
  (turn.cue.point, (turn.outcome .empty).routine)

def Markers.mergeTurns (markers : Markers) (turns : List Turn) : Markers :=
  turns.foldl (fun m turn => m.merge (turn.outcome .empty).markers) markers

def Turn.results (turns : List Turn) : List (Nat × Routine) × Markers :=
  (turns.map part, Markers.empty.mergeTurns turns)

def Show.Takes (s : Show) (index : Nat) (sheet : Sheet) (turn : Turn) : Prop :=
  ∃ home, sheet.placements[turn.cue.point]? = some home ∧
    turn = s.turn index turn.cue.point sheet home home.symbol turn.memory

structure Gathering.Joined (g : Gathering) (turns : List Turn) (g' : Gathering) : Prop where
  routines : g'.routines = g.routines ++ turns.map Turn.part
  markers : g'.markers = g.markers.mergeTurns turns
  own : ∀ turn ∈ turns,
    g'.memory.get? turn.cue.point = (turn.outcome .empty).memory.get? turn.cue.point
  others : ∀ q, q ∉ turns.map (·.cue.point) → g'.memory.get? q = g.memory.get? q

theorem Gathering.Joined.cons {g g₁ g₂ : Gathering} {turn : Turn} {turns : List Turn}
    (hfirst : g.Joined [turn] g₁) (hrest : g₁.Joined turns g₂)
    (hnew : turn.cue.point ∉ turns.map (·.cue.point)) : g.Joined (turn :: turns) g₂ where
  routines := by rw [hrest.routines, hfirst.routines, List.append_assoc]; rfl
  markers := by rw [hrest.markers, hfirst.markers]; rfl
  own turn' hmem := by
    rcases List.mem_cons.1 hmem with rfl | hmem
    · exact (hrest.others _ hnew).trans (hfirst.own turn' (.head _))
    · exact hrest.own turn' hmem
  others q hq := by
    obtain ⟨hne, hq⟩ := List.ne_and_not_mem_of_not_mem_cons hq
    exact (hrest.others q hq).trans (hfirst.others q (by simpa using hne))

namespace Show

variable {s : Show} {index : Nat} {sheet : Sheet} {g : Gathering}

theorem join_turn (hsheet : s.sheets[index]? = some sheet) {turn : Turn}
    (htakes : s.Takes index sheet turn)
    (hown : g.memory.get? turn.cue.point = turn.memory.get? turn.cue.point) :
    ∃ g', s.join index sheet g turn.cue.point = .ok g' ∧ g.Joined [turn] g' := by
  obtain ⟨home, hhome, hturn⟩ := htakes
  have hplace : sheet.placement turn.cue.point = .ok home := by simp [Sheet.placement, hhome]
  have hrehearse := rehearse_eq_turn hsheet hhome home.symbol g.memory g.markers
  have hmemory : s.turn index turn.cue.point sheet home home.symbol g.memory =
      { turn with memory := g.memory } :=
    congrArg (fun turn : Turn => { turn with memory := g.memory }) hturn.symm
  -- alone a marcher has a memory of its own, here it has that of all of them
  rw [hmemory] at hrehearse
  have hamid := turn.outcome_amid g.markers hown
  generalize { turn with memory := g.memory }.outcome g.markers = o at hrehearse hamid
  have hjoin : s.join index sheet g turn.cue.point =
      .ok ⟨g.routines ++ [(turn.cue.point, o.routine)], o.memory, o.markers⟩ := by
    simp only [join, hplace, hrehearse, bind, Except.bind, pure, Except.pure]
  refine ⟨_, hjoin, ?_, hamid.markers, ?_, ?_⟩
  · rw [hamid.routine]
    rfl
  · intro turn' hmem
    obtain rfl := List.mem_singleton.1 hmem
    exact hamid.own
  · intro q hq
    exact hamid.others q (by simpa using hq)

theorem foldlM_join (hsheet : s.sheets[index]? = some sheet) {turns : List Turn}
    (htakes : ∀ turn ∈ turns, s.Takes index sheet turn)
    (hnodup : (turns.map (·.cue.point)).Nodup)
    (hown : ∀ turn ∈ turns, g.memory.get? turn.cue.point = turn.memory.get? turn.cue.point) :
    ∃ g', (turns.map (·.cue.point)).foldlM (s.join index sheet) g = .ok g' ∧
      g.Joined turns g' := by
  induction turns generalizing g with
  | nil => exact ⟨g, rfl, (List.append_nil _).symm, rfl, by simp, fun _ _ => rfl⟩
  | cons turn turns ih =>
    obtain ⟨hturn, hturns⟩ := List.forall_mem_cons.1 htakes
    obtain ⟨hnew, hnodup⟩ := List.nodup_cons.1 hnodup
    obtain ⟨g₁, hjoin, hfirst⟩ := join_turn hsheet hturn (hown turn (.head _))
    -- a turn leaves the variables of those who come after it as they were
    have hown₁ : ∀ turn' ∈ turns,
        g₁.memory.get? turn'.cue.point = turn'.memory.get? turn'.cue.point := by
      intro turn' hmem
      have hne : turn'.cue.point ≠ turn.cue.point :=
        fun heq => hnew (List.mem_map.2 ⟨turn', hmem, heq⟩)
      exact (hfirst.others _ (by simpa using hne)).trans (hown turn' (.tail _ hmem))
    obtain ⟨g₂, hfold, hrest⟩ := ih hturns hnodup hown₁
    refine ⟨g₂, ?_, hfirst.cons hrest hnew⟩
    rw [List.map_cons, List.foldlM_cons, hjoin]
    exact hfold

def lineup (s : Show) (order : List Nat) (k : Nat) : List Turn :=
  order.filterMap fun point => s.turn? point k

theorem Valid.turn?_takes (hvalid : s.Valid) {point k : Nat} (hpoint : point < s.size)
    (hk : s.performed[k]? = some (index, sheet)) :
    ∃ turn, s.turn? point k = some turn ∧ turn.cue.point = point ∧ s.Takes index sheet turn := by
  obtain ⟨home, memory, hhome, hturn⟩ := hvalid.turn?_eq hpoint hk
  exact ⟨_, hturn, rfl, home, hhome, rfl⟩

theorem Valid.lineup_spec (hvalid : s.Valid) {order : List Nat} {k : Nat}
    (horder : ∀ point ∈ order, point < s.size) (hk : s.performed[k]? = some (index, sheet)) :
    ((s.lineup order k).map (·.cue.point)) = order ∧
      ∀ turn ∈ s.lineup order k, turn.cue.point < s.size ∧
        s.turn? turn.cue.point k = some turn ∧ s.Takes index sheet turn := by
  constructor
  · induction order with
    | nil => rfl
    | cons point order ih =>
      obtain ⟨hpoint, horder⟩ := List.forall_mem_cons.1 horder
      obtain ⟨turn, hturn, hcue, -⟩ := hvalid.turn?_takes hpoint hk
      have hcons : s.lineup (point :: order) k = turn :: s.lineup order k :=
        List.filterMap_cons_some hturn
      rw [hcons, List.map_cons, hcue, ih horder]
  · intro turn hmem
    obtain ⟨point, hmem, hturn⟩ := List.mem_filterMap.1 hmem
    obtain ⟨turn', hturn', rfl, htakes⟩ := hvalid.turn?_takes (horder point hmem) hk
    obtain rfl := Option.some.inj (hturn.symm.trans hturn')
    exact ⟨horder _ hmem, hturn, htakes⟩

theorem Valid.tour_eq (hvalid : s.Valid) (orders : Nat → List Nat)
    (horders : ∀ p ∈ s.performed, (orders p.1).Perm (List.range s.size)) {k : Nat}
    {sheets : List (Nat × Sheet)} (hsheets : s.performed.drop k = sheets) {memory : Memory}
    (hmemory : ∀ point < s.size, ∀ turn ∈ s.turn? point k,
      memory.get? point = turn.memory.get? point) :
    ∃ w, s.tour orders memory sheets = .ok w ∧
      (w.map fun g => (g.routines, g.markers)) =
        (sheets.zipIdx k).map fun q => Turn.results (s.lineup (orders q.1.1) q.2) := by
  induction sheets generalizing k memory with
  | nil => exact ⟨[], rfl, rfl⟩
  | cons p sheets ih =>
    obtain ⟨i, sheet⟩ := p
    have hk : s.performed[k]? = some (i, sheet) := by
      rw [← List.head?_drop, hsheets]
      rfl
    have hmem := List.mem_of_getElem? hk
    have hperm := horders _ hmem
    have horder : ∀ point ∈ orders i, point < s.size :=
      fun point hpoint => List.mem_range.1 (hperm.mem_iff.1 hpoint)
    obtain ⟨hpoints, hlineup⟩ := hvalid.lineup_spec horder hk
    have hnodup : ((s.lineup (orders i) k).map (·.cue.point)).Nodup := by
      rw [hpoints]
      exact hperm.nodup_iff.2 List.nodup_range
    have hown : ∀ turn ∈ s.lineup (orders i) k,
        memory.get? turn.cue.point = turn.memory.get? turn.cue.point := by
      intro turn hturn
      obtain ⟨hsize, hturn, -⟩ := hlineup turn hturn
      exact hmemory _ hsize turn hturn
    obtain ⟨g, hfold, hjoined⟩ := foldlM_join (g := ⟨[], memory, .empty⟩)
      (mem_performed hmem) (fun turn hturn => (hlineup turn hturn).2.2) hnodup hown
    rw [hpoints] at hfold
    have hrest : s.performed.drop (k + 1) = sheets := by
      rw [← List.tail_drop, hsheets, List.tail_cons]
    have hmemory' : ∀ point < s.size, ∀ next ∈ s.turn? point (k + 1),
        g.memory.get? point = next.memory.get? point := by
      intro point hsize next hnext
      obtain ⟨turn, hturn, rfl, -⟩ := hvalid.turn?_takes hsize hk
      have hin : turn ∈ s.lineup (orders i) k :=
        List.mem_filterMap.2 ⟨_, hperm.mem_iff.2 (List.mem_range.2 hsize), hturn⟩
      rw [hjoined.own turn hin, memory_turns_succ hturn hnext]
    -- this memory is the one with which the turns on the next sheet begin
    obtain ⟨w, htour, hw⟩ := ih hrest hmemory'
    refine ⟨g :: w, ?_, ?_⟩
    · simp only [tour, hfold, htour, bind, Except.bind, pure, Except.pure]
    · rw [List.map_cons, hw, hjoined.routines, hjoined.markers]
      rfl

theorem Valid.tour_ok (hvalid : s.Valid) (orders : Nat → List Nat)
    (horders : ∀ p ∈ s.performed, (orders p.1).Perm (List.range s.size)) :
    ∃ w, s.tour orders .empty s.performed = .ok w ∧ (w.map fun g => (g.routines, g.markers)) =
      s.performed.zipIdx.map fun q => Turn.results (s.lineup (orders q.1.1) q.2) := by
  refine hvalid.tour_eq orders horders List.drop_zero fun point _ turn hturn => ?_
  rw [memory_turns_zero hturn]

theorem column_eq_lineup (s : Show) (k : Nat) :
    s.column k = (s.lineup (List.range s.size) k).map fun turn => turn.outcome .empty := by
  rw [column, lineup, List.map_filterMap]

end Show

namespace Timeline

variable {s : Show} {o : Settings} {t : Timeline}

theorem markers_scene (h : build s o = .ok t) {k : Nat} {sc : Scene}
    (hk : t.scenes[k]? = some sc) :
    sc.markers = Markers.empty.mergeTurns (s.lineup (List.range s.size) k) := by
  obtain ⟨i, sheet, -, rfl⟩ := build_performed h hk
  rw [Scene.of, Show.column_eq_lineup, List.foldl_map]
  rfl

theorem routines_scene (h : build s o = .ok t) {k : Nat} {sc : Scene}
    (hk : t.scenes[k]? = some sc) :
    sc.routines = (s.lineup (List.range s.size) k).map Turn.part := by
  obtain ⟨i, sheet, hperf, -⟩ := build_performed h hk
  have hvalid := (build_ok h).1
  have hlength := build_length_lanes h hk
  have hsize := build_size h
  have hsome : ∀ p ∈ List.range s.size, ∃ turn, s.turn? p k = some turn := by
    intro p hp
    obtain ⟨turn, hturn, -⟩ := hvalid.turn?_takes (List.mem_range.1 hp) hperf
    exact ⟨turn, hturn⟩
  refine List.ext_getElem? fun p => ?_
  rw [Scene.routines, List.getElem?_map, List.getElem?_map, List.getElem?_zipIdx, Show.lineup,
    getElem?_filterMap hsome]
  by_cases hp : p < t.size
  · obtain ⟨turn, hturn⟩ := build_turn h hk hp
    obtain ⟨hcue, -, hlane⟩ := build_lane h hk hp hturn
    rw [hlane, List.getElem?_range (hsize ▸ hp), Option.bind_some, hturn]
    simp [Turn.part, hcue]
  · have hrange : (List.range s.size)[p]? = none :=
      List.getElem?_eq_none (by rw [List.length_range]; omega)
    rw [List.getElem?_eq_none (by omega), hrange]
    rfl

theorem scenes_eq (h : build s o = .ok t) : (t.scenes.map fun sc => (sc.routines, sc.markers)) =
    s.performed.zipIdx.map fun q => Turn.results (s.lineup (List.range s.size) q.2) := by
  refine List.ext_getElem? fun k => ?_
  rw [List.getElem?_map, List.getElem?_map, List.getElem?_zipIdx, Nat.zero_add]
  cases hk : t.scenes[k]? with
  | none =>
    have hperf : s.performed[k]? = none := by rwa [build_scene h, Option.map_eq_none_iff] at hk
    rw [hperf]
    rfl
  | some sc =>
    obtain ⟨i, sheet, hperf, -⟩ := build_performed h hk
    rw [hperf, Option.map_some, routines_scene h hk, markers_scene h hk]
    rfl

/-- A timeline is what the marchers come to sheet by sheet, one after the other by their indices.
The routines stay the same in whatever other order they take their turns on each sheet. -/
theorem build_eq_tour {s : Show} (hvalid : s.Valid) :
    ∃ w, s.tour (fun _ => List.range s.size) .empty s.performed = .ok w ∧
      (∀ o t, build s o = .ok t → (t.scenes.map fun sc => (sc.routines, sc.markers)) =
        w.map fun g => (g.routines, g.markers)) ∧
      ∀ orders : Nat → List Nat,
        (∀ p ∈ s.performed, (orders p.1).Perm (List.range s.size)) →
        ∃ w', s.tour orders .empty s.performed = .ok w' ∧
          List.Forall₂ (fun g' g => g'.routines.Perm g.routines) w' w := by
  obtain ⟨w, htour, hw⟩ := hvalid.tour_ok (fun _ => List.range s.size) fun _ _ => .refl _
  refine ⟨w, htour, fun o t h => (scenes_eq h).trans hw.symm, fun orders horders => ?_⟩
  obtain ⟨w', htour', hw'⟩ := hvalid.tour_ok orders horders
  refine ⟨w', htour', ?_⟩
  have hroutines := congrArg (List.map Prod.fst) hw
  have hroutines' := congrArg (List.map Prod.fst) hw'
  simp only [List.map_map, Function.comp_def] at hroutines hroutines'
  -- on either way through the show each sheet has the same turns
  have hperms : List.Forall₂ List.Perm (w'.map (·.routines)) (w.map (·.routines)) := by
    rw [hroutines, hroutines', List.forall₂_map_left_iff, List.forall₂_map_right_iff,
      List.forall₂_same]
    intro q hq
    have hperm := horders q.1 (List.fst_mem_of_mem_zipIdx hq)
    exact (hperm.filterMap fun point => s.turn? point q.2).map Turn.part
  rwa [List.forall₂_map_left_iff, List.forall₂_map_right_iff] at hperms

theorem build_eq_tour_sample : ∃ w w',
    Show.sample.tour (fun _ => List.range Show.sample.size) .empty Show.sample.performed = .ok w ∧
    Show.sample.tour (fun i => if i = 0 then [2, 0, 1] else [1, 2, 0]) .empty
      Show.sample.performed = .ok w' ∧
    (sample.scenes.map fun sc => (sc.routines, sc.markers)) =
      (w.map fun g => (g.routines, g.markers)) ∧
    List.Forall₂ (fun g' g => g'.routines.Perm g.routines) w' w := by
  have hvalid : Show.sample.Valid := (build_ok build_sample).1
  have horders : ∀ p ∈ Show.sample.performed,
      (if p.1 = 0 then [2, 0, 1] else [1, 2, 0]).Perm (List.range Show.sample.size) := by decide
  obtain ⟨w, htour, hbuild, hother⟩ := build_eq_tour hvalid
  obtain ⟨w', htour', hperms⟩ := hother (fun i => if i = 0 then [2, 0, 1] else [1, 2, 0]) horders
  exact ⟨w, w', htour, htour', hbuild _ _ build_sample, hperms⟩

end Timeline
end FieldShow
