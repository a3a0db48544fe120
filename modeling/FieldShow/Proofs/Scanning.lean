import FieldShow.Proofs.Located

/-!
Looking for clashes by playing the show once. The scan stops at every beat and finds there what
random access finds, so no beat with clashes is passed over, told twice or told in another's place.
-/

namespace FieldShow

def Timeline.clashesOn? (t : Timeline) (beat : Nat) : Option (Nat × Clashes) :=
  ((t.clashes beat).toOption.filter (· ≠ [])).map (beat, ·)

variable {s : Show} {o : Settings} {t : Timeline} {beat : Nat}

namespace Playhead

variable {h : Playhead}

theorem At.here_eq (hat : h.At t beat) (hbuild : Timeline.build s o = .ok t) :
    (if h.clashes = [] then [] else [(h.globalBeat, h.clashes)]) =
      [beat].filterMap t.clashesOn? := by
  have htold : t.clashesOn? beat = if h.clashes = [] then none else some (beat, h.clashes) := by
    rw [Timeline.clashesOn?, hat.clashes_eq hbuild]
    by_cases hnone : h.clashes = [] <;> simp [hnone, Except.toOption]
  rw [hat.globalBeat_eq, List.filterMap_cons, htold]
  split <;> rfl

theorem At.clashesAhead_eq (hat : h.At t beat) (hbuild : Timeline.build s o = .ok t)
    (harcs : t.TimedArcsMet) {n : Nat} (hn : t.total ≤ beat + n) :
    clashesAhead n h = (List.range' beat (t.total - beat + 1)).filterMap t.clashesOn? := by
  have hlaid : ∀ sc ∈ t.scenes, ∀ l ∈ sc.lanes, ∀ m ∈ l.routine.motions, m.Laid :=
    fun sc hsc l hl => (Timeline.build_onBudget hbuild hsc hl).laid
  -- each step makes up for one beat less, so they suffice up to the end
  induction n generalizing h beat with
  | zero =>
    have hend : t.total ≤ beat := hn
    rw [Nat.sub_eq_zero_of_le hend, List.range'_one, ← hat.here_eq hbuild]
    rfl
  | succ n ih =>
    have hfirst (m : Nat) : (List.range' beat (m + 1)).filterMap t.clashesOn? =
        [beat].filterMap t.clashesOn? ++ (List.range' (beat + 1) m).filterMap t.clashesOn? := by
      rw [List.range'_succ, ← List.singleton_append, List.filterMap_append]
    rw [clashesAhead, hfirst, ← hat.here_eq hbuild]
    by_cases hlt : beat < t.total
    · obtain ⟨h', hnext, hat'⟩ := hat.next hlt hlaid harcs
      have hrest : t.total - beat = t.total - (beat + 1) + 1 := by omega
      simp only [hnext, ih hat' (by omega), hrest]
    · have hend : t.total ≤ beat := Nat.le_of_not_lt hlt
      have hover : h.next = (false, h) :=
        next_of_end (by rwa [hat.timeline, hat.globalBeat_eq])
      simp only [hover, Nat.sub_eq_zero_of_le hend, List.range'_zero, List.filterMap_nil,
        List.append_nil]

end Playhead

namespace Timeline

theorem clashesOn?_eq_some {b : Nat} {cs : Clashes} :
    t.clashesOn? beat = some (b, cs) ↔ b = beat ∧ t.clashes beat = .ok cs ∧ cs ≠ [] := by
  rw [clashesOn?]
  cases t.clashes beat with
  | error f => simp [Except.toOption]
  | ok found =>
    simp only [Except.toOption, Option.map_eq_some_iff, Option.filter_eq_some_iff,
      Option.some.injEq, Except.ok.injEq, Prod.mk.injEq, decide_eq_true_eq]
    constructor
    · rintro ⟨_, ⟨rfl, hsome⟩, rfl, rfl⟩
      exact ⟨rfl, rfl, hsome⟩
    · rintro ⟨rfl, rfl, hsome⟩
      exact ⟨found, ⟨rfl, hsome⟩, rfl, rfl⟩

/-- A built timeline has an answer for each of its beats, and the scan tells of just those beats on
which there are clashes, one after the other and with these clashes. It comes to its end by itself:
with more steps to make it would tell the same. -/
theorem allClashes_complete (hbuild : build s o = .ok t) (hne : t.scenes ≠ [])
    (harcs : t.TimedArcsMet) :
    (∀ beat ≤ t.total, ∃ cs, t.clashes beat = .ok cs) ∧
    (∀ beat cs, (beat, cs) ∈ t.allClashes ↔
      beat ≤ t.total ∧ t.clashes beat = .ok cs ∧ cs ≠ []) ∧
    t.allClashes.Pairwise (fun p q => p.1 < q.1) ∧
    ∀ n, t.total ≤ n → Playhead.clashesAhead n (.start t) = t.allClashes := by
  have hat := Playhead.at_start hne
  have hscan (n : Nat) (hn : t.total ≤ n) : Playhead.clashesAhead n (.start t) =
      (List.range' 0 (t.total + 1)).filterMap t.clashesOn? :=
    hat.clashesAhead_eq hbuild harcs (Nat.le_trans hn (Nat.le_add_left n 0))
  have hall : t.allClashes = (List.range' 0 (t.total + 1)).filterMap t.clashesOn? :=
    hscan t.total (Nat.le_refl _)
  refine ⟨fun beat hle => ?_, fun beat cs => ?_, ?_, fun n hn => (hscan n hn).trans hall.symm⟩
  · obtain ⟨⟨i, k⟩, hloc⟩ := locate_of_le hne hle
    have hthere : ((Playhead.start t).load i k).At t beat := Playhead.at_load hat.timeline hloc
    exact ⟨_, hthere.clashes_eq hbuild⟩
  · rw [hall, List.mem_filterMap]
    constructor
    · rintro ⟨b, hb, hfound⟩
      obtain ⟨rfl, hcs, hsome⟩ := clashesOn?_eq_some.1 hfound
      have hlt := (List.mem_range'_1.1 hb).2
      exact ⟨by omega, hcs, hsome⟩
    · rintro ⟨hle, hcs, hsome⟩
      have hmem : beat ∈ List.range' 0 (t.total + 1) := List.mem_range'_1.2 ⟨by omega, by omega⟩
      exact ⟨beat, hmem, clashesOn?_eq_some.2 ⟨rfl, hcs, hsome⟩⟩
  · rw [hall, List.pairwise_filterMap]
    refine (List.pairwise_lt_range' ..).imp ?_
    intro b c hlt p hp q hq
    obtain ⟨rfl, -⟩ := clashesOn?_eq_some.1 hp
    obtain ⟨rfl, -⟩ := clashesOn?_eq_some.1 hq
    exact hlt

theorem allClashes_complete_hurried : (3, [(⟨0, 1⟩, .warning)]) ∈ hurried.allClashes ∧
    (4, [(⟨0, 1⟩, .intersect)]) ∈ hurried.allClashes := by
  have hne : hurried.scenes ≠ [] := by decide +kernel
  have harcs : hurried.TimedArcsMet := by decide +kernel
  have hwarning : hurried.clashes 3 = .ok [(⟨0, 1⟩, .warning)] :=
    eq_ok_of_toOption (by decide +kernel)
  have hintersect : hurried.clashes 4 = .ok [(⟨0, 1⟩, .intersect)] :=
    eq_ok_of_toOption (by decide +kernel)
  have htotal : hurried.total = 4 := by decide +kernel
  have hfound := (allClashes_complete build_hurried hne harcs).2.1
  exact ⟨(hfound _ _).2 ⟨by omega, hwarning, by simp⟩,
    (hfound _ _).2 ⟨by omega, hintersect, by simp⟩⟩

end Timeline
end FieldShow
