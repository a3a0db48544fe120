import Mathlib.Data.List.Forall2
import FieldShow.Proofs.Building
import FieldShow.Proofs.Diagnostics

/-!
Marchers on their own. Two shows that are alike for one marcher, whoever else is in them and
wherever the others stand, give that marcher the same turns, and so the same routines and the same
mistakes.
-/

namespace FieldShow

/-- For one marcher these are the same sheet: it stands in the same place with the same symbol, and
the sheet has the same programs and beats. -/
structure Sheet.SameFor (point : Nat) (sheet other : Sheet) : Prop where
  beats : sheet.beats = other.beats
  performed : sheet.performed = other.performed
  book : sheet.book = other.book
  placement : sheet.placements[point]? = other.placements[point]?

def Show.SameFor (point : Nat) (s other : Show) : Prop :=
  List.Forall₂ (Sheet.SameFor point) s.sheets other.sheets

variable {s s' : Show} {point : Nat}

namespace Show

theorem sameFor_find? {sheets others : List Sheet}
    (h : List.Forall₂ (Sheet.SameFor point) sheets others) :
    (sheets.find? (·.performed)).bind (fun sheet => sheet.placements[point]?) =
      (others.find? (·.performed)).bind fun sheet => sheet.placements[point]? := by
  induction h with
  | nil => rfl
  | cons hfirst _ ih =>
    rw [List.find?_cons, List.find?_cons, hfirst.performed]
    split
    · exact hfirst.placement
    · exact ih

theorem SameFor.placeAfter?_eq (h : s.SameFor point s') (index : Nat) :
    s.placeAfter? index point = s'.placeAfter? index point := by
  have hnext := sameFor_find? (List.forall₂_drop (index + 1) h)
  have hplaces (s : Show) : s.placeAfter? index point = ((s.nextPerformed? index).bind
      fun sheet => sheet.placements[point]?).map (·.position) := by
    rw [placeAfter?, Option.map_bind]
    rfl
  rw [hplaces, hplaces, nextPerformed?, nextPerformed?, hnext]

theorem sameFor_performed {sheets others : List Sheet}
    (h : List.Forall₂ (Sheet.SameFor point) sheets others) (n : Nat) :
    List.Forall₂ (fun p q => p.2 = q.2 ∧ p.1.SameFor point q.1)
      ((sheets.zipIdx n).filter (·.1.performed)) ((others.zipIdx n).filter (·.1.performed)) := by
  induction h generalizing n with
  | nil => exact .nil
  | cons hfirst _ ih =>
    rw [List.zipIdx_cons, List.zipIdx_cons, List.filter_cons, List.filter_cons, hfirst.performed]
    split
    · exact .cons ⟨rfl, hfirst⟩ (ih (n + 1))
    · exact ih (n + 1)

theorem SameFor.performed (h : s.SameFor point s') :
    List.Forall₂ (fun p q => p.1 = q.1 ∧ p.2.SameFor point q.2) s.performed s'.performed := by
  rw [Show.performed, Show.performed, List.forall₂_map_left_iff, List.forall₂_map_right_iff]
  exact sameFor_performed h 0

theorem SameFor.beats_eq (h : s.SameFor point s') : s.beats = s'.beats := by
  have hsum {l l' : List (Nat × Sheet)}
      (h : List.Forall₂ (fun p q => p.1 = q.1 ∧ p.2.SameFor point q.2) l l') :
      sumOf (fun p => p.2.beats.toNat) l = sumOf (fun p => p.2.beats.toNat) l' := by
    induction h with
    | nil => rfl
    | cons hfirst _ ih => rw [sumOf_cons, sumOf_cons, hfirst.2.beats, ih]
  have hbeats (s : Show) : s.beats = sumOf (fun p => p.2.beats.toNat) s.performed := by
    rw [← s.sumOf_assemble [], Scene.sumOf_assemble]
  rw [hbeats, hbeats, hsum h.performed]

theorem SameFor.lt_size (h : s.SameFor point s') (hpoint : point < s.size) :
    point < s'.size := by
  obtain ⟨sheets⟩ := s
  obtain ⟨others⟩ := s'
  cases h with
  | nil => exact hpoint
  | cons hfirst _ =>
    have hhome := hfirst.placement
    rw [List.getElem?_eq_getElem hpoint] at hhome
    exact (List.getElem?_eq_some_iff.1 hhome.symm).1

theorem SameFor.turn_eq (h : s.SameFor point s') {sheet other : Sheet}
    (hsheet : sheet.SameFor point other) (index : Nat) (home : Placement) (symbol : Symbol)
    (memory : Memory) : s.turn index point sheet home symbol memory =
      s'.turn index point other home symbol memory := by
  simp only [turn, h.placeAfter?_eq, hsheet.book, hsheet.beats]

theorem SameFor.turns_eq (h : s.SameFor point s') {sheets others : List (Nat × Sheet)}
    (hsheets : List.Forall₂ (fun p q => p.1 = q.1 ∧ p.2.SameFor point q.2) sheets others)
    (memory : Memory) : s.turns point memory sheets = s'.turns point memory others := by
  induction hsheets generalizing memory with
  | nil => rfl
  | @cons p q _ _ hfirst _ ih =>
    obtain ⟨i, sheet⟩ := p
    obtain ⟨j, other⟩ := q
    obtain ⟨rfl, hsheet⟩ := hfirst
    rw [turns, turns, hsheet.placement]
    cases hhome : other.placements[point]? with
    | none => rfl
    | some home =>
      have hturn := h.turn_eq hsheet i home home.symbol memory
      simp only [hturn]
      -- what it remembers then is the same too
      rw [ih]

theorem SameFor.turn?_eq (h : s.SameFor point s') (k : Nat) :
    s.turn? point k = s'.turn? point k := by
  rw [turn?, turn?, h.turns_eq h.performed]

end Show

namespace Timeline

variable {o : Settings} {t t' : Timeline}

theorem exists_build_iff (hvalid : s.Valid) : (∃ t, build s o = .ok t) ↔
    ¬o.least < 0 ∧ ¬(o.parallel = true ∧ o.threads = some 0) ∧ s.beats < UInt32.size := by
  rw [build_eq, s.fault?_eq_none_iff.2 hvalid]
  by_cases hleast : o.least < 0
  · simp [hleast]
  by_cases hthreads : o.parallel = true ∧ o.threads = some 0
  · simp [hleast, hthreads]
  simp [hleast, hthreads, exists_ofScenes_iff, s.sumOf_assemble]

theorem scene_sameFor (hsame : s.SameFor point s') (h : build s o = .ok t)
    (h' : build s' o = .ok t') (hpoint : point < t.size) {k : Nat} {sc sc' : Scene}
    (hk : t.scenes[k]? = some sc) (hk' : t'.scenes[k]? = some sc') :
    (∃ lane, sc.lanes[point]? = some lane ∧ sc'.lanes[point]? = some lane) ∧
      ∀ kind, point ∈ sc.markers.points kind ↔ point ∈ sc'.markers.points kind := by
  have hpoint' : point < t'.size := by
    rw [build_size h] at hpoint
    rw [build_size h']
    exact hsame.lt_size hpoint
  obtain ⟨turn, hturn⟩ := build_turn h hk hpoint
  have hturn' : s'.turn? point k = some turn := by rw [← hsame.turn?_eq, hturn]
  obtain ⟨-, -, hlane⟩ := build_lane h hk hpoint hturn
  obtain ⟨-, -, hlane'⟩ := build_lane h' hk' hpoint' hturn'
  refine ⟨⟨_, hlane, hlane'⟩, fun kind => ?_⟩
  rw [marked_iff h hk hpoint hturn, marked_iff h' hk' hpoint' hturn']

/-- With one of two valid shows that are alike for a marcher the other can be worked out too, and
on every scene the marcher has the same lane and is marked with the same kinds of mistakes. -/
theorem build_isolated (hsame : s.SameFor point s') (hvalid : s'.Valid) (h : build s o = .ok t)
    (hpoint : point < t.size) : ∃ t', build s' o = .ok t' ∧
      List.Forall₂ (fun sc sc' : Scene =>
        (∃ lane, sc.lanes[point]? = some lane ∧ sc'.lanes[point]? = some lane) ∧
        ∀ kind, point ∈ sc.markers.points kind ↔ point ∈ sc'.markers.points kind)
        t.scenes t'.scenes := by
  have hchecks := (exists_build_iff (build_ok h).1).1 ⟨t, h⟩
  rw [hsame.beats_eq] at hchecks
  obtain ⟨t', h'⟩ := (exists_build_iff hvalid).2 hchecks
  have hlength : t.scenes.length = t'.scenes.length := by
    rw [length_scenes h, length_scenes h', hsame.performed.length_eq]
  refine ⟨t', h', List.forall₂_iff_get.2 ⟨hlength, fun k hk hk' => ?_⟩⟩
  exact scene_sameFor hsame h h' hpoint (List.getElem?_eq_getElem hk)
    (List.getElem?_eq_getElem hk')

end Timeline

def Show.sampleInWay : Show :=
  ⟨Show.sample.sheets.map fun sheet => { sheet with
    name := "again"
    placements := sheet.placements.take 1 ++ [{ position := ⟨64, 0⟩, symbol := .solid }] }⟩

theorem Timeline.build_isolated_sample : ∃ t', build Show.sampleInWay {} = .ok t' ∧
    List.Forall₂ (fun sc sc' : Scene =>
      (∃ lane, sc.lanes[0]? = some lane ∧ sc'.lanes[0]? = some lane) ∧
      ∀ kind, 0 ∈ sc.markers.points kind ↔ 0 ∈ sc'.markers.points kind)
      sample.scenes t'.scenes := by
  have hsame : Show.sample.SameFor 0 Show.sampleInWay :=
    .cons ⟨rfl, rfl, rfl, rfl⟩ (.cons ⟨rfl, rfl, rfl, rfl⟩ (.cons ⟨rfl, rfl, rfl, rfl⟩ .nil))
  have hvalid : Show.sampleInWay.Valid := by decide +kernel
  have hpoint : 0 < sample.size := by decide +kernel
  exact build_isolated hsame hvalid build_sample hpoint

end FieldShow
