import FieldShow.Routine.Plan

/-!
What a statement can be planned as: a variable to set, at most two legs, or a loop to follow. The
legs are straight unless the statement turns about a place, and the only mistakes met on the way to
them are in their counts.
-/

namespace FieldShow

def Mistake.IsCount : Mistake → Prop
  | .fractionalCount | .negativeCount => True
  | _ => False

/-- What is done depends on where the origin of the field lies. -/
def Action.usesOrigin : Action → Bool
  | .toGrid _ | .wheel .. => true
  | _ => false

def Action.countermarches : Action → Bool
  | .countermarch .. | .diagonalCountermarch .. | .straightCountermarch .. => true
  | _ => false

namespace Motion

def Straight (m : Motion) : Prop :=
  match m.path with
  | .stand _ | .line .. => True
  | .arc .. => False

@[simp] theorem straight_stand (n : Nat) (f : Float) : (stand n f).Straight := trivial

@[simp] theorem straight_lineFacing (n : Nat) (v : Vec) (f : Float) : (lineFacing n v f).Straight :=
  trivial

@[simp] theorem straight_line (n : Nat) (v : Vec) : (line n v).Straight := trivial

@[simp] theorem straight_directed (n : Int32) (v : Vec) : (Plan.directed n v).Straight := by
  unfold Plan.directed
  split <;> trivial

end Motion

theorem toCount_counts (x : Float) : ∀ k ∈ (toCount x).mistakes, k.IsCount := by
  simp [toCount, Mistake.IsCount]

theorem toBeats_counts (x : Float) : ∀ k ∈ (toBeats x).mistakes, k.IsCount := by
  simp only [toBeats, Noted.mistakes_bind, List.forall_mem_append]
  refine ⟨toCount_counts x, ?_⟩
  split <;> simp [Mistake.IsCount]

structure Action.Legs (a : Action) (n : Nat) (legs : List (Noted Motion)) : Prop where
  length : legs.length ≤ n
  counts : ∀ leg ∈ legs, ∀ k ∈ leg.mistakes, k.IsCount
  straight : a.usesOrigin = false → ∀ leg ∈ legs, leg.value.Straight

/-- What a statement may be planned as. -/
def Action.Plans (a : Action) : Plan → Prop
  | .remember slot _ => ∃ value, a = .assign slot value
  | .go legs => a.Legs 2 legs
  | .circuit .. => a.countermarches = true

namespace Action

variable {a : Action} {m n : Nat}

theorem legs_nil (n : Nat) : a.Legs n [] := by constructor <;> simp

theorem legs_pure {m : Motion} (hm : a.usesOrigin = false → m.Straight) : a.Legs 1 [pure m] := by
  constructor <;> simp_all

theorem Legs.append {ls ms : List (Noted Motion)} (hl : a.Legs m ls) (hm : a.Legs n ms) :
    a.Legs (m + n) (ls ++ ms) where
  length := by
    rw [List.length_append]
    exact Nat.add_le_add hl.length hm.length
  counts := List.forall_mem_append.2 ⟨hl.counts, hm.counts⟩
  straight ha := List.forall_mem_append.2 ⟨hl.straight ha, hm.straight ha⟩

theorem legs_wholeSteps (v : Vec) : a.Legs 1 (Plan.wholeSteps v) := by
  by_cases hv : v = 0
  · simpa [Plan.wholeSteps, hv] using legs_nil 1
  · simpa [Plan.wholeSteps, hv] using legs_pure fun _ => Motion.straight_line ..

theorem legs_beats (x : Float) (v : Vec) :
    a.Legs 1 [(fun n => Motion.line n v) <$> toBeats x] where
  length := Nat.le_refl 1
  counts := List.forall_mem_singleton.2 <| by simpa [Functor.map] using toBeats_counts x
  straight _ := List.forall_mem_singleton.2 trivial

theorem legs_leg (p : Pace) (x : Float) : a.Legs 1 (Meeting.leg p x) := by
  unfold Meeting.leg
  split
  · exact legs_nil 1
  · exact legs_beats ..

theorem Legs.le {legs : List (Noted Motion)} (h : a.Legs m legs) (hmn : m ≤ n) : a.Legs n legs :=
  { h with length := Nat.le_trans h.length hmn }

theorem legs_meeting (p q : Pace) (v : Vec) (m : Meeting) : a.Legs 2 (m.legs p q v).value := by
  cases m with
  | crossing first second => exact (legs_leg p first.value).append (legs_leg q second.value)
  | parallel beats => exact (legs_beats beats.value v).le (by decide)
  | impossible => exact legs_nil 2

@[simp] theorem plans_nothing : a.Plans .nothing := legs_nil 2

theorem plans_single {m : Motion} (hm : a.usesOrigin = false → m.Straight) : a.Plans (.single m) :=
  (legs_pure hm).le (by decide)

theorem plans_wholeSteps (v w : Vec) :
    a.Plans (.go (Plan.wholeSteps v ++ Plan.wholeSteps w)) :=
  (legs_wholeSteps v).append (legs_wholeSteps w)

theorem plans_around (ha : a.countermarches = true) (st : Station) (entry through : Vec)
    (steps first second x : Float) :
    a.Plans (Plan.around st entry through steps first second x).value := by
  unfold Plan.around
  split
  · exact plans_nothing
  · split
    · exact plans_nothing
    · exact ha

theorem plans_aroundBy (ha : a.countermarches = true) (st : Station) (entry through : Vec)
    (hs : Option (Constant × Constant)) (x : Float) :
    a.Plans (Plan.aroundBy st entry through hs x).value := by
  cases hs with
  | none => exact plans_nothing
  | some hs => exact plans_around ha ..

theorem plan_plans (st : Station) (a : Action) : a.Plans (a.plan st).value := by
  cases a with
  | assign s value => exact ⟨value, rfl⟩
  | countermarch => exact plans_around rfl ..
  | diagonalCountermarch | straightCountermarch => exact plans_aroundBy rfl ..
  | diagonalFirst | straightFirst | eastWestFirst | northSouthFirst => exact plans_wholeSteps ..
  | blam | jump => exact plans_single fun _ => Motion.straight_line ..
  | standOut => exact plans_single fun _ => Motion.straight_stand ..
  | evenly => exact plans_single fun _ => Motion.straight_directed ..
  | fountain => exact legs_meeting ..
  | forward =>
    simp only [plan, Noted.value_bind]
    split
    · exact plans_nothing
    · simp only [Noted.value_bind, Noted.value_pure]
      split
      · exact plans_nothing
      · exact plans_single fun _ => Motion.straight_directed ..
  | forwardTo | toGrid =>
    simp only [plan, Noted.value_bind, Noted.value_pure]
    split
    · exact plans_nothing
    · exact plans_single fun _ => Motion.straight_line ..
  | march size steps direction facing =>
    simp only [plan, Noted.value_bind]
    split
    · exact plans_nothing
    · simp only [Noted.value_bind]
      split
      · exact plans_nothing
      · cases facing with
        | some f => exact plans_single fun _ => Motion.straight_lineFacing ..
        | none => exact plans_single fun _ => Motion.straight_directed ..
  | stand =>
    simp only [plan, Noted.value_bind]
    split
    · exact plans_nothing
    · exact plans_single fun _ => Motion.straight_stand ..
  | wheel =>
    simp only [plan, Noted.value_bind]
    split <;> exact plans_single nofun

end Action
end FieldShow
