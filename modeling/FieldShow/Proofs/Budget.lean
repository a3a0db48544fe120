import FieldShow.Proofs.Course

/-!
The beats of a sheet are shared out to the last one. The beats left and the beats of the motions
so far always add up to those of the sheet, and a motion that is cut takes all that are left.
-/

namespace FieldShow

/-- A routine takes the beats of its sheet. At most one motion is cut; it takes at least a beat, and
those after it take none. -/
structure Routine.OnBudget (r : Routine) (beats : Nat) : Prop where
  counted : r.beats = beats
  total : sumOf Motion.beats r.motions = beats
  no_overflow : ∀ n, sumOf Motion.beats (r.motions.take n) < UInt32.size
  laid : ∀ m ∈ r.motions, m.Laid
  cut_once : (r.motions.filter fun m => m.Cut).length ≤ 1
  cut_pos : ∀ m ∈ r.motions, m.Cut → 1 ≤ m.beats
  after_cut : r.motions.Pairwise fun m n => m.Cut → n.beats = 0

namespace Progress

variable {c : Cue} {s t : Progress} {total : Nat}

/-- The motions so far and the beats left make up the beats of the sheet. -/
structure Budget (total : Nat) (s : Progress) : Prop where
  sum : sumOf Motion.beats s.motions.toList + s.remaining = total
  laid : ∀ m ∈ s.motions.toList, m.Laid
  cut_pos : ∀ m ∈ s.motions.toList, m.Cut → 1 ≤ m.beats
  after_cut : s.motions.toList.Pairwise fun m n => m.Cut → n.beats = 0
  spent : ∀ m ∈ s.motions.toList, m.Cut → s.remaining = 0

theorem Budget.congr (h : s.Budget total) (hm : t.motions = s.motions)
    (hr : t.remaining = s.remaining) : t.Budget total := by
  constructor <;> rw [hm]
  · rw [hr, h.sum]
  · exact h.laid
  · exact h.cut_pos
  · exact h.after_cut
  · rw [hr]
    exact h.spent

theorem Budget.take {m : Motion} (h : s.Budget total) (hle : m.beats ≤ s.remaining)
    (hm : m.Laid) (hcut : m.Cut → 0 < s.remaining ∧ m.beats = s.remaining) :
    (s.take c m).Budget total := by
  have hr : (s.take c m).remaining = s.remaining - m.beats := rfl
  constructor <;>
    simp only [motions_take, hm.rewind, List.forall_mem_append, List.forall_mem_singleton]
  · have := h.sum
    simp only [sumOf_append, sumOf_cons, sumOf_nil, hr]
    omega
  · exact ⟨h.laid, hm⟩
  · refine ⟨h.cut_pos, fun hc => ?_⟩
    have := hcut hc
    omega
  · refine List.pairwise_append.2 ⟨h.after_cut, List.pairwise_singleton _ _, ?_⟩
    -- a motion cut before this one has left no beats for it
    intro a ha b hb hc
    obtain rfl := List.mem_singleton.1 hb
    have := h.spent a ha hc
    omega
  · rw [hr]
    refine ⟨fun a ha hc => ?_, fun hc => ?_⟩
    · have := h.spent a ha hc
      omega
    · have := hcut hc
      omega

theorem Step.budget (h : Step c s t) (hs : s.Budget total) : t.Budget total := by
  cases h with
  | note | remember | runOut => exact hs.congr rfl rfl
  | take hm hle =>
    exact hs.take hle hm.laid fun hc => absurd hc hm.not_cut
  | cut loc hm h₀ hlt =>
    exact Budget.take (s := { s.note _ .outOfTime with overflowed := true }) (hs.congr rfl rfl)
      (Nat.min_le_right ..) (hm.laid.clip _) fun _ => ⟨h₀, Nat.min_eq_right (Nat.le_of_lt hlt)⟩

theorem Course.budget (h : Course c s t) (hs : s.Budget total) : t.Budget total :=
  h.keeps Step.budget hs

theorem budget_start (pos : Vec) (beats : Nat) (memory : Memory) (markers : Markers) :
    (start pos beats memory markers).Budget beats := by
  constructor <;> simp [start]

theorem budget_correct (h : s.Budget total) : (s.correct c).Budget total := by
  obtain ⟨heq, -⟩ | ⟨target, -, -, heq⟩ := s.correct_cases (c := c)
  · rwa [heq]
  · rw [heq]
    exact Step.budget (.take (Motion.fresh_line ..) (Nat.le_refl _)) (h.congr rfl rfl)

theorem budget_fill (h : s.Budget total) : (s.fill c).Budget total := by
  obtain ⟨-, heq⟩ | ⟨-, heq⟩ := s.fill_cases (c := c)
  · rwa [heq]
  · rw [heq]
    exact Step.budget (.take (Motion.fresh_stand ..) (Nat.le_refl _)) (h.congr rfl rfl)

theorem remaining_fill (s : Progress) : (s.fill c).remaining = 0 := by
  obtain ⟨h, heq⟩ | ⟨-, heq⟩ := s.fill_cases (c := c)
  · rwa [heq]
  · rw [heq]
    exact Nat.sub_self _

end Progress

theorem Motion.cut_once {ms : List Motion} (pos : ∀ m ∈ ms, m.Cut → 1 ≤ m.beats)
    (after : ms.Pairwise fun m n => m.Cut → n.beats = 0) :
    (ms.filter fun m => m.Cut).length ≤ 1 := by
  induction ms with
  | nil => simp
  | cons m ms ih =>
    obtain ⟨hm, hms⟩ := List.pairwise_cons.1 after
    obtain ⟨-, pos⟩ := List.forall_mem_cons.1 pos
    by_cases hc : m.Cut
    · have : ms.filter (fun m => decide m.Cut) = [] := by
        simp only [List.filter_eq_nil_iff, decide_eq_true_eq]
        -- a later one that is cut would take a beat
        intro n hn hcut
        have := hm n hn hc
        have := pos n hn hcut
        omega
      simp [hc, this]
    · simpa [hc] using ih pos hms

namespace Progress

variable {c : Cue} {s : Progress} {total : Nat}

theorem Budget.finish (h : s.Budget total) (hsize : total < UInt32.size) :
    (s.finish c).routine.OnBudget total := by
  have hb := budget_fill (c := c) (budget_correct (c := c) h)
  have hsum : sumOf Motion.beats (s.finish c).routine.motions = total := by
    have := hb.sum
    rwa [remaining_fill, Nat.add_zero] at this
  exact {
    counted := hsum
    total := hsum
    no_overflow := fun n => by
      have := sumOf_take_le Motion.beats n (s.finish c).routine.motions
      omega
    laid := hb.laid
    cut_once := Motion.cut_once hb.cut_pos hb.after_cut
    cut_pos := hb.cut_pos
    after_cut := hb.after_cut }

end Progress

theorem Turn.onBudget (t : Turn) (hsize : t.beats < UInt32.size) (markers : Markers) :
    (t.outcome markers).routine.OnBudget t.beats :=
  ((t.course markers).budget (Progress.budget_start ..)).finish hsize

/-- In a valid show every marcher has a routine on every sheet, whatever symbol it wears there,
and the routine takes the beats of the sheet. -/
theorem Show.outcome_onBudget {s : Show} (h : s.Valid) {index point : Nat} {sheet : Sheet}
    (hsheet : s.sheets[index]? = some sheet) (hpoint : point < s.size) (symbol : Symbol) :
    ∃ o, s.outcome index point symbol = .ok o ∧ o.routine.OnBudget sheet.beats.toNat := by
  have hfault : s.fault? = none := s.fault?_eq_none_iff.2 h
  have hlength := (h sheet (List.mem_of_getElem? hsheet)).1
  obtain ⟨home, hhome⟩ : ∃ home, sheet.placements[point]? = some home :=
    ⟨_, List.getElem?_eq_getElem (hlength ▸ hpoint)⟩
  refine ⟨(s.turn index point sheet home symbol .empty).outcome .empty, ?_, ?_⟩
  · simp only [outcome, validate, hfault, bind, Except.bind]
    exact rehearse_eq_turn hsheet hhome symbol .empty .empty
  · exact Turn.onBudget _ sheet.beats.toNat_lt .empty

theorem Show.outcome_onBudget_sample :
    ∃ o, Show.sample.outcome 0 0 .plain = .ok o ∧ o.routine.OnBudget 8 := by
  have hvalid : Show.sample.Valid := by decide +kernel
  have hpoint : 0 < Show.sample.size := by decide
  have hsheet : Show.sample.sheets[0]? = some Show.sample.sheets[0] := rfl
  exact Show.outcome_onBudget hvalid hsheet hpoint .plain

end FieldShow
