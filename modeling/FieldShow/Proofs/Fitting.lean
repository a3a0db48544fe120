import FieldShow.Proofs.Boundary

/-!
Statements for which there are beats enough. Their motions are gone through one after the other and
none of them is cut, so that the marcher comes to where they lead and is not told to be out of time.
-/

namespace FieldShow

namespace Motion

theorem lead_append (ms ns : List Motion) (p : Vec) :
    lead (ms ++ ns) p = lead ns (lead ms p) := List.foldl_append ..

def leg (n : Nat) (v : Vec) : List Motion := if v = 0 then [] else [.line n v]

variable (n : Nat) (v : Vec)

theorem laid_leg : ∀ m ∈ leg n v, m.Laid := by
  unfold leg
  split
  · exact List.forall_mem_nil _
  · exact List.forall_mem_singleton.2 (fresh_line ..).laid

theorem beats_leg : sumOf Motion.beats (leg n v) = if v = 0 then 0 else n := by
  unfold leg
  split
  · rfl
  · rw [sumOf_cons, sumOf_nil]
    rfl

theorem lead_leg (p : Vec) : lead (leg n v) p = p + v := by
  unfold leg
  split
  · next hv =>
    rw [hv, Vec.add_zero]
    rfl
  · exact destination_line ..

end Motion

namespace Progress

variable {c : Cue} {s t u : Progress} {m : Motion} {ms ns : List Motion}

/-- From `s` to `t` some motions were gone through, each of them whole. -/
structure Through (s t : Progress) (ms : List Motion) : Prop where
  pos : t.pos = Motion.lead ms s.pos
  remaining : t.remaining + sumOf Motion.beats ms = s.remaining
  motions : t.motions.toList = s.motions.toList ++ ms
  halted : t.halted = s.halted
  overflowed : t.overflowed = s.overflowed
  outOfTime : t.markers.get? .outOfTime = s.markers.get? .outOfTime

theorem through_refl (s : Progress) : Through s s [] :=
  ⟨rfl, rfl, (List.append_nil _).symm, rfl, rfl, rfl⟩

theorem Through.trans (h : Through s t ms) (h' : Through t u ns) : Through s u (ms ++ ns) where
  pos := by rw [h'.pos, h.pos, Motion.lead_append]
  remaining := by
    rw [← h.remaining, ← h'.remaining, sumOf_append]
    omega
  motions := by rw [h'.motions, h.motions, List.append_assoc]
  halted := h'.halted.trans h.halted
  overflowed := h'.overflowed.trans h.overflowed
  outOfTime := h'.outOfTime.trans h.outOfTime

theorem through_note {k : Mistake} (hk : k.IsSlip) (s : Progress) : Through s (s.note c k) [] := by
  have hne : Mistake.outOfTime ≠ k := by
    rintro rfl
    exact hk
  exact { through_refl s with outOfTime := Markers.get?_register_of_ne hne .. }

theorem through_noteAll {ks : List Mistake} (h : ∀ k ∈ ks, k.IsSlip) (s : Progress) :
    Through s (s.noteAll c ks) [] := by
  induction ks generalizing s with
  | nil => exact through_refl s
  | cons k ks ih =>
    obtain ⟨hk, hks⟩ := List.forall_mem_cons.1 h
    exact (through_note hk s).trans (ih hks (s.note c k))

theorem through_append (hm : m.Laid) (h : m.beats ≤ s.remaining) :
    Through s (s.append c m) [m] := by
  rw [append_of_le h]
  exact {
    pos := pos_take hm s
    remaining := Nat.sub_add_cancel h
    motions := by rw [motions_take, hm.rewind]
    halted := rfl
    overflowed := rfl
    outOfTime := rfl }

theorem through_appendAll (hms : ∀ m ∈ ms, m.Laid) (h : sumOf Motion.beats ms ≤ s.remaining) :
    Through s (s.appendAll c (ms.map pure)) ms := by
  induction ms generalizing s with
  | nil => exact through_refl s
  | cons m ms ih =>
    obtain ⟨hm, hms⟩ := List.forall_mem_cons.1 hms
    rw [sumOf_cons] at h
    have hfirst : Through s (s.append c m) [m] := through_append hm (by omega)
    have hleft : (s.append c m).remaining = s.remaining - m.beats := remaining_append c m s
    rw [List.map_cons, appendAll, Noted.value_pure, if_neg (by omega)]
    exact hfirst.trans (ih hms (by omega))

theorem through_perform {a : Action} (hplan : (a.plan (s.station c)).value = .go (ms.map pure))
    (hms : ∀ m ∈ ms, m.Laid) (h : sumOf Motion.beats ms ≤ s.remaining) :
    Through s (s.perform c a) ms := by
  have hnoted := through_noteAll (c := c) (a.plan_sound (s.station c)).1 s
  rw [perform, hplan]
  rw [← hnoted.remaining, sumOf_nil, Nat.add_zero] at h
  exact hnoted.trans (through_appendAll hms h)

end Progress
end FieldShow
