import FieldShow.Timeline.Basic

/-!
A marcher takes its turn on one performed sheet after the other, and brings along what it
remembers. In a valid show every turn has an outcome, and what a sheet calls the next one is the
sheet of the next turn, however many lie between that are not performed.
-/

namespace FieldShow

/-- All that decides what a marcher does on a sheet. -/
structure Turn where
  cue : Cue
  program : Option Program
  beats : Nat
  memory : Memory

namespace Turn

def start (t : Turn) : Progress := .start t.cue.home.position t.beats t.memory .empty

/-- The program alone, before anything is made up for. -/
def perform (t : Turn) (markers : Markers) : Progress :=
  let s := Progress.start t.cue.home.position t.beats t.memory markers
  match t.program with
  | some (st :: rest) => s.run t.cue (st :: rest)
  | _ => s.runDefault t.cue

def outcome (t : Turn) (markers : Markers) : Outcome := (t.perform markers).finish t.cue

theorem rehearse_eq (t : Turn) (markers : Markers) :
    t.cue.rehearse t.program t.beats t.memory markers = t.outcome markers := rfl

end Turn

namespace Show

def placeAfter? (s : Show) (index point : Nat) : Option Vec :=
  (s.nextPerformed? index).bind fun t => (t.placements[point]?).map (·.position)

def turn (s : Show) (index point : Nat) (sheet : Sheet) (home : Placement) (symbol : Symbol)
    (memory : Memory) : Turn :=
  { cue := ⟨point, symbol, home, s.placeAfter? index point, none⟩
    program := sheet.book.get? symbol
    beats := sheet.beats.toNat
    memory := memory }

theorem rehearse_eq_turn {s : Show} {index point : Nat} {sheet : Sheet} {home : Placement}
    (hsheet : s.sheets[index]? = some sheet) (hhome : sheet.placements[point]? = some home)
    (symbol : Symbol) (memory : Memory) (markers : Markers) :
    s.rehearse index point symbol memory markers =
      .ok ((s.turn index point sheet home symbol memory).outcome markers) := by
  have h₁ : s.sheet index = .ok sheet := by simp [Show.sheet, hsheet]
  have h₂ : sheet.placement point = .ok home := by simp [Sheet.placement, hhome]
  simp only [rehearse, cue, h₁, h₂, bind, Except.bind, pure, Except.pure, ← Turn.rehearse_eq]
  rfl

def turns (s : Show) (point : Nat) : Memory → List (Nat × Sheet) → List Turn
  | _, [] => []
  | memory, (i, sheet) :: rest =>
    match sheet.placements[point]? with
    | none => []
    | some home =>
      let t := s.turn i point sheet home home.symbol memory
      t :: s.turns point (t.outcome .empty).memory rest

def Places (s : Show) (point : Nat) (sheets : List (Nat × Sheet)) : Prop :=
  ∀ p ∈ sheets, s.sheets[p.1]? = some p.2 ∧ point < p.2.placements.length

theorem outcomes_eq_turns {s : Show} {point : Nat} {sheets : List (Nat × Sheet)}
    (h : s.Places point sheets) (memory : Memory) :
    s.outcomes point memory sheets =
      .ok ((s.turns point memory sheets).map (·.outcome .empty)) := by
  induction sheets generalizing memory with
  | nil => rfl
  | cons p sheets ih =>
    obtain ⟨⟨hsheet, hpoint⟩, hrest⟩ := List.forall_mem_cons.1 h
    obtain ⟨home, hhome⟩ : ∃ home, p.2.placements[point]? = some home :=
      ⟨_, List.getElem?_eq_getElem hpoint⟩
    have hplace : p.2.placement point = .ok home := by simp [Sheet.placement, hhome]
    have hrehearse := rehearse_eq_turn hsheet hhome home.symbol memory .empty
    simp only [outcomes, hplace, hrehearse, ih hrest, turns, hhome, bind, Except.bind, pure,
      Except.pure, List.map_cons]

theorem getElem?_turns {s : Show} {point : Nat} {sheets : List (Nat × Sheet)}
    (h : s.Places point sheets) (memory : Memory) {k i : Nat} {sheet : Sheet}
    (hk : sheets[k]? = some (i, sheet)) :
    ∃ home memory', sheet.placements[point]? = some home ∧
      (s.turns point memory sheets)[k]? =
        some (s.turn i point sheet home home.symbol memory') := by
  induction sheets generalizing memory k with
  | nil => simp at hk
  | cons p sheets ih =>
    obtain ⟨⟨-, hpoint⟩, hrest⟩ := List.forall_mem_cons.1 h
    obtain ⟨home, hhome⟩ : ∃ home, p.2.placements[point]? = some home :=
      ⟨_, List.getElem?_eq_getElem hpoint⟩
    cases k with
    | zero =>
      obtain rfl : p = (i, sheet) := by simpa using hk
      exact ⟨home, memory, hhome, by simp [turns, hhome]⟩
    | succ k =>
      simp only [turns, hhome, List.getElem?_cons_succ]
      exact ih hrest _ (by simpa using hk)

theorem memory_turns_zero {s : Show} {point : Nat} {memory : Memory} {sheets : List (Nat × Sheet)}
    {turn : Turn} (h : (s.turns point memory sheets)[0]? = some turn) : turn.memory = memory := by
  cases sheets with
  | nil => simp [turns] at h
  | cons p sheets =>
    simp only [turns] at h
    split at h
    · simp at h
    · obtain rfl := Option.some.inj h
      rfl

theorem memory_turns_succ {s : Show} {point : Nat} {memory : Memory} {sheets : List (Nat × Sheet)}
    {k : Nat} {turn next : Turn} (h : (s.turns point memory sheets)[k]? = some turn)
    (hnext : (s.turns point memory sheets)[k + 1]? = some next) :
    next.memory = (turn.outcome .empty).memory := by
  induction sheets generalizing memory k with
  | nil => simp [turns] at h
  | cons p sheets ih =>
    simp only [turns] at h hnext
    split at h
    · simp at h
    · next home hhome =>
      simp only [hhome, List.getElem?_cons_succ] at hnext
      cases k with
      | zero =>
        obtain rfl := Option.some.inj h
        exact memory_turns_zero hnext
      | succ k => exact ih h hnext

theorem mem_performed {s : Show} {p : Nat × Sheet} (h : p ∈ s.performed) :
    s.sheets[p.1]? = some p.2 := by
  obtain ⟨⟨sheet, i⟩, hmem, rfl⟩ := List.mem_map.1 h
  exact List.mem_zipIdx_iff_getElem?.1 (List.mem_filter.1 hmem).1

theorem find?_performed (sheets : List Sheet) (n : Nat) :
    sheets.find? (·.performed) = (((sheets.zipIdx n).filter (·.1.performed))[0]?).map (·.1) := by
  induction sheets generalizing n with
  | nil => rfl
  | cons sheet sheets ih =>
    rw [List.find?_cons, List.zipIdx_cons, List.filter_cons]
    split
    · next h => simp [h]
    · next h => simpa [h] using ih (n + 1)

theorem find?_drop_performed (sheets : List Sheet) (n : Nat) {k i : Nat} {sheet : Sheet}
    (h : ((sheets.zipIdx n).filter (·.1.performed))[k]? = some (sheet, i)) :
    n ≤ i ∧ (sheets.drop (i + 1 - n)).find? (·.performed) =
      (((sheets.zipIdx n).filter (·.1.performed))[k + 1]?).map (·.1) := by
  induction sheets generalizing n k with
  | nil => simp at h
  | cons first sheets ih =>
    -- the sheets are counted from `n` on, so those after the first from `n + 1`
    have later {k : Nat}
        (h : ((sheets.zipIdx (n + 1)).filter (·.1.performed))[k]? = some (sheet, i)) :
        n ≤ i ∧ ((first :: sheets).drop (i + 1 - n)).find? (·.performed) =
          (((sheets.zipIdx (n + 1)).filter (·.1.performed))[k + 1]?).map (·.1) := by
      obtain ⟨hle, hfind⟩ := ih (n + 1) h
      have : i + 1 - n = (i + 1 - (n + 1)) + 1 := by omega
      rw [this, List.drop_succ_cons]
      exact ⟨by omega, hfind⟩
    rw [List.zipIdx_cons, List.filter_cons] at h ⊢
    split at h
    · next hfirst =>
      rw [if_pos hfirst]
      cases k with
      | zero =>
        obtain ⟨rfl, rfl⟩ : first = sheet ∧ n = i := by simpa using h
        simpa using find?_performed sheets (n + 1)
      | succ k => simpa using later (by simpa using h)
    · next hfirst =>
      rw [if_neg hfirst]
      exact later h

theorem nextPerformed?_eq {s : Show} {k i : Nat} {sheet : Sheet}
    (h : s.performed[k]? = some (i, sheet)) :
    s.nextPerformed? i = (s.performed[k + 1]?).map (·.2) := by
  rw [performed, List.getElem?_map, Option.map_eq_some_iff] at h
  obtain ⟨⟨sheet', i'⟩, hk, heq⟩ := h
  obtain ⟨rfl, rfl⟩ : i' = i ∧ sheet' = sheet := by simpa using heq
  rw [performed, List.getElem?_map, Option.map_map]
  exact (find?_drop_performed s.sheets 0 hk).2

theorem Valid.places {s : Show} (h : s.Valid) {point : Nat} (hpoint : point < s.size) :
    s.Places point s.performed := by
  intro p hp
  have hsheet := mem_performed hp
  have hmem := List.mem_of_getElem? hsheet
  exact ⟨hsheet, (h p.2 hmem).1 ▸ hpoint⟩

theorem Valid.exists_placement {s : Show} (h : s.Valid) {index point : Nat} {sheet : Sheet}
    (hsheet : s.sheets[index]? = some sheet) (hpoint : point < s.size) :
    ∃ home, sheet.placements[point]? = some home :=
  ⟨_, List.getElem?_eq_getElem ((h sheet (List.mem_of_getElem? hsheet)).1 ▸ hpoint)⟩

theorem Valid.outcome_eq {s : Show} (h : s.Valid) {index point : Nat} {sheet : Sheet}
    {home : Placement} (hsheet : s.sheets[index]? = some sheet)
    (hhome : sheet.placements[point]? = some home) (symbol : Symbol) :
    s.outcome index point symbol =
      .ok ((s.turn index point sheet home symbol .empty).outcome .empty) := by
  have hfault : s.fault? = none := s.fault?_eq_none_iff.2 h
  simp only [outcome, validate, hfault, bind, Except.bind]
  exact rehearse_eq_turn hsheet hhome symbol .empty .empty

/-- On the opening the first marcher runs out of time in a straight line and jumps the rest of the
way, the second goes to a wrong place, and the third comes too early. -/
def opening : Book :=
  let program (actions : List Action) : Program := actions.map (⟨·, none⟩)
  Book.empty
    |>.insert .plain (program [.jump (.ref 1), .wheel (.number 90) (.number 3) .start false,
      .evenly (.number 6) .next, .jump .next])
    |>.insert .solid (program [.evenly (.number 3) (.ref 1)])
    |>.insert .cross (program [.evenly (.number 3) .next])

def sample : Show :=
  let place (x y : Int32) (symbol : Symbol) : Placement :=
    ⟨⟨x, y⟩, #v[some ⟨x + 64, y⟩, none, none], symbol⟩
  let line (y : Int32) : List Placement :=
    [place 0 y .plain, place 100 y .solid, place 200 y .cross]
  ⟨[⟨"opening", 8, true, line 0, opening⟩, ⟨"sketch", 4, false, line 40, .empty⟩,
    ⟨"set", 4, true, line 160, .empty⟩]⟩

end Show
end FieldShow
