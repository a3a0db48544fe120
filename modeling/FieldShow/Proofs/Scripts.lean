import FieldShow.Continuity.Json
import FieldShow.Json.Codec

/-!
The JSON form of a continuity, read back. A reader that is given a depth takes values that lie no
deeper, so every reading goes down with the nesting of what has been written. A faithful text layer
keeps what is written, as long as it keeps the numbers.
-/

namespace FieldShow

namespace Json

/-! ## Nesting -/

theorem itemsDepth_le {items : List Json} {d : Nat} :
    itemsDepth items ≤ d ↔ ∀ v ∈ items, v.depth ≤ d := by
  induction items with
  | nil => simp [itemsDepth]
  | cons v items ih => rw [itemsDepth, Nat.max_le, ih, List.forall_mem_cons]

theorem membersDepth_le {members : List (Text × Json)} {d : Nat} :
    membersDepth members ≤ d ↔ ∀ m ∈ members, m.2.depth ≤ d := by
  induction members with
  | nil => simp [membersDepth]
  | cons m members ih => rw [membersDepth, Nat.max_le, ih, List.forall_mem_cons]

theorem exists_of_depth_array_le {items : List Json} {d : Nat} (h : (array items).depth ≤ d) :
    ∃ inner, d = inner + 1 ∧ ∀ v ∈ items, v.depth ≤ inner := by
  rw [depth] at h
  obtain ⟨inner, rfl⟩ := Nat.exists_eq_add_of_le' (Nat.le_of_add_left_le h)
  exact ⟨inner, rfl, itemsDepth_le.1 (Nat.le_of_succ_le_succ h)⟩

theorem exists_of_depth_record_le {fields : List (String × Json)} {d : Nat}
    (h : (record fields).depth ≤ d) :
    ∃ inner, d = inner + 1 ∧ ∀ f ∈ fields, f.2.depth ≤ inner := by
  rw [record, depth] at h
  obtain ⟨inner, rfl⟩ := Nat.exists_eq_add_of_le' (Nat.le_of_add_left_le h)
  refine ⟨inner, rfl, fun f hf => ?_⟩
  exact membersDepth_le.1 (Nat.le_of_succ_le_succ h) (some f.1, f.2) (List.mem_map_of_mem hf)

theorem exists_of_depth_tagged_le {tag : String} {v : Json} {d : Nat}
    (h : (tagged tag v).depth ≤ d) : ∃ inner, d = inner + 1 ∧ v.depth ≤ inner := by
  obtain ⟨inner, hd, hv⟩ := exists_of_depth_record_le h
  exact ⟨inner, hd, hv (tag, v) (List.mem_singleton_self _)⟩

namespace Codec

variable {c : Codec} {xs : List Float} (hc : c.Faithful xs)
include hc

theorem Faithful.spelled_text (s : String) : c.Spelled (text s) := .string (hc.string s)

theorem Faithful.spelled_record {fields : List (String × Json)}
    (h : ∀ f ∈ fields, c.Spelled f.2) : c.Spelled (record fields) := by
  refine .object (fun m hm => ?_) fun m hm => ?_ <;>
    obtain ⟨f, hf, rfl⟩ := List.mem_map.1 hm
  · exact hc.string f.1
  · exact h f hf

theorem Faithful.spelled_tagged (tag : String) {v : Json} (hv : c.Spelled v) :
    c.Spelled (tagged tag v) :=
  hc.spelled_record (by simpa using hv)

theorem Faithful.spelled_ofInt {n : Int} (h : Word n) : c.Spelled (ofInt n) := .number (hc.int h)

theorem Faithful.spelled_ofFloat {x : Float} (hmem : x ∈ xs) : c.Spelled (ofFloat x) := by
  by_cases hfinite : x.isFinite
  · have hkeeps := hc.float hmem hfinite
    rw [ofFloat, if_pos hfinite] at hkeeps ⊢
    exact .number hkeeps
  · rw [ofFloat, if_neg hfinite]
    exact .null

omit hc in
theorem spelled_array {α : Type} {write : α → Json} {ys : List α}
    (h : ∀ y ∈ ys, c.Spelled (write y)) : c.Spelled (array (ys.map write)) :=
  .array (by simpa using h)

end Codec

theorem word_int32 (n : Int32) : Word n.toInt := by
  have hlow : Int32.minValue.toInt ≤ n.toInt := n.minValue_le_toInt
  have hhigh : n.toInt ≤ Int32.maxValue.toInt := n.toInt_le
  have hlimits : Int64.minValue.toInt ≤ Int32.minValue.toInt ∧
      Int32.maxValue.toInt < (UInt64.size : Int) := by decide
  exact ⟨Int.le_trans hlimits.1 hlow, Int.lt_of_le_of_lt hhigh hlimits.2⟩

theorem word_ofNat {n : Nat} (h : n < UInt64.size) : Word n := by
  have hlimit : Int64.minValue.toInt ≤ 0 := by decide
  exact ⟨Int.le_trans hlimit (Int.natCast_nonneg n), Int.ofNat_lt.2 h⟩

theorem word_uint32 (n : UInt32) : Word n.toNat :=
  word_ofNat (Nat.lt_trans n.toNat_lt (by decide))

theorem int?_ofInt (n : Int) : int? (ofInt n) = some n := rfl

theorem natBelow?_ofNat {bound n : Nat} (h : n < bound) : natBelow? bound (ofNat n) = some n := by
  have hrange : 0 ≤ (n : Int) ∧ (n : Int) < bound := by omega
  rw [natBelow?, ofNat, int?_ofInt, Option.bind_eq_bind, Option.bind_some, if_pos hrange,
    Int.toNat_natCast]

theorem uint32?_ofNat (n : UInt32) : uint32? (ofNat n.toNat) = some n := by
  rw [uint32?, natBelow?_ofNat n.toNat_lt, Option.map_some, UInt32.ofNat_toNat]

theorem int32?_ofInt (n : Int32) : int32? (ofInt n.toInt) = some n := by
  have hrange : Int32.minValue.toInt ≤ n.toInt ∧ n.toInt ≤ Int32.maxValue.toInt :=
    ⟨n.minValue_le_toInt, n.toInt_le⟩
  rw [int32?, int?_ofInt, Option.bind_eq_bind, Option.bind_some, if_pos hrange, Int32.ofInt_toInt]

theorem float?_ofFloat {x : Float} (h : x.isFinite) : float? (ofFloat x) = some x := by
  rw [ofFloat, if_pos h, float?, if_pos h]

theorem optional?_map {α : Type} {read : Json → Option α} {write : α → Json} {x : Option α}
    (h : ∀ a ∈ x, write a ≠ null ∧ read (write a) = some a) :
    optional? read (x.map write) = some x := by
  cases x with
  | none => rfl
  | some a =>
    obtain ⟨hnull, hread⟩ := h a rfl
    rw [Option.map_some, optional?.eq_def]
    split
    · next heq => cases heq
    · next heq => exact absurd (Option.some.inj heq) hnull
    · next heq =>
      obtain rfl := Option.some.inj heq
      rw [hread, Option.map_some]

end Json

open Json

/-! ## Expressions -/

theorem Slot.ofJson?_toJson (d : Nat) (s : Slot) : ofJson? d s.toJson = some s := by
  cases s <;> rfl

theorem Constant.ofJson?_toJson (d : Nat) (c : Constant) : ofJson? d c.toJson = some c := by
  cases c <;> rfl

theorem Target.ofJson?_toJson {d : Nat} {p : Target} (h : p.toJson.depth ≤ d) :
    ofJson? d p.toJson = some p := by
  cases p with
  | ref n =>
    obtain ⟨d, rfl, -⟩ := exists_of_depth_tagged_le h
    have hread (v : Json) : ofJson? (d + 1) (tagged "ref" v) =
      (do return ref (.ofNat (← v.natBelow? UInt8.size))) := rfl
    rw [toJson, hread, natBelow?_ofNat n.toNat_lt]
    simp
  | _ => rfl

theorem Target.spelled_toJson {c : Codec} {xs : List Float} (hc : c.Faithful xs) (p : Target) :
    c.Spelled p.toJson := by
  cases p with
  | ref n =>
    have hword : Word n.toNat := word_ofNat (Nat.lt_trans n.toNat_lt (by decide))
    exact hc.spelled_tagged _ (hc.spelled_ofInt hword)
  | _ => exact hc.spelled_text _

namespace Expr

/-- The numbers that an expression names. -/
def literals : Expr → List Float
  | number x => [x]
  | neg a | opposite a => a.literals
  | add a b | sub a b | mul a b | div a b | nearer a b _ | stepDrill a b _ =>
    a.literals ++ b.literals
  | _ => []

section Reading

variable {d : Nat} {tag : String} {a b : Expr} {p q : Target}

theorem ofJson?_unary {f : Expr → Expr} (h : (tag, f) ∈ [("neg", neg), ("opp", opposite)])
    (ha : ofJson? d a.toJson = some a) : ofJson? (d + 1) (tagged tag a.toJson) = some (f a) := by
  have hread (v : Json) : ofJson? (d + 1) (tagged tag v) = (ofJson? d v).map f := by
    simp only [List.mem_cons, Prod.mk.injEq, List.not_mem_nil, or_false] at h
    rcases h with ⟨rfl, rfl⟩ | ⟨rfl, rfl⟩ <;> rfl
  rw [hread, ha, Option.map_some]

theorem ofJson?_binary {f : Expr → Expr → Expr}
    (h : (tag, f) ∈ [("add", add), ("sub", sub), ("mul", mul), ("div", div)])
    (ha : ofJson? d a.toJson = some a) (hb : ofJson? d b.toJson = some b) :
    ofJson? (d + 2) (tagged tag (array [a.toJson, b.toJson])) = some (f a b) := by
  have hread (v w : Json) : ofJson? (d + 2) (tagged tag (array [v, w])) =
      (do return f (← ofJson? d v) (← ofJson? d w)) := by
    simp only [List.mem_cons, Prod.mk.injEq, List.not_mem_nil, or_false] at h
    rcases h with ⟨rfl, rfl⟩ | ⟨rfl, rfl⟩ | ⟨rfl, rfl⟩ | ⟨rfl, rfl⟩ <;> rfl
  rw [hread, ha, hb]
  rfl

theorem ofJson?_place {f : Target → Expr}
    (h : (tag, f) ∈ [("dir", direction), ("dist", distance)])
    (hp : Target.ofJson? d p.toJson = some p) :
    ofJson? (d + 1) (tagged tag p.toJson) = some (f p) := by
  have hread (v : Json) : ofJson? (d + 1) (tagged tag v) = (Target.ofJson? d v).map f := by
    simp only [List.mem_cons, Prod.mk.injEq, List.not_mem_nil, or_false] at h
    rcases h with ⟨rfl, rfl⟩ | ⟨rfl, rfl⟩ <;> rfl
  rw [hread, hp, Option.map_some]

theorem ofJson?_places {f : Target → Target → Expr}
    (h : (tag, f) ∈ [("dir_from", directionBetween), ("dist_from", distanceBetween)])
    (hp : Target.ofJson? d p.toJson = some p) (hq : Target.ofJson? d q.toJson = some q) :
    ofJson? (d + 2) (tagged tag (array [p.toJson, q.toJson])) = some (f p q) := by
  have hread (v w : Json) : ofJson? (d + 2) (tagged tag (array [v, w])) =
      (do return f (← Target.ofJson? d v) (← Target.ofJson? d w)) := by
    simp only [List.mem_cons, Prod.mk.injEq, List.not_mem_nil, or_false] at h
    rcases h with ⟨rfl, rfl⟩ | ⟨rfl, rfl⟩ <;> rfl
  rw [hread, hp, hq]
  rfl

theorem ofJson?_mixed {first second : String} {f : Expr → Expr → Target → Expr}
    (h : (tag, first, second, f) ∈
      [("either", "dir1", "dir2", nearer), ("step", "beats", "block", stepDrill)])
    (ha : ofJson? d a.toJson = some a) (hb : ofJson? d b.toJson = some b)
    (hp : Target.ofJson? d p.toJson = some p) :
    ofJson? (d + 2) (tagged tag
      (record [(first, a.toJson), (second, b.toJson), ("point", p.toJson)])) = some (f a b p) := by
  have hread (v w u : Json) : ofJson? (d + 2) (tagged tag
      (record [(first, v), (second, w), ("point", u)])) =
      (do return f (← ofJson? d v) (← ofJson? d w) (← Target.ofJson? d u)) := by
    simp only [List.mem_cons, Prod.mk.injEq, List.not_mem_nil, or_false] at h
    rcases h with ⟨rfl, rfl, rfl, rfl⟩ | ⟨rfl, rfl, rfl, rfl⟩ <;> rfl
  rw [hread, ha, hb, hp]
  rfl

end Reading

theorem ofJson?_toJson {e : Expr} (hfinite : ∀ x ∈ e.literals, x.isFinite) {d : Nat}
    (h : e.toJson.depth ≤ d) : ofJson? d e.toJson = some e := by
  -- by induction on the expression: each form goes down as many levels as it writes
  induction e generalizing d with
  | number x =>
    obtain ⟨d, rfl, -⟩ := exists_of_depth_tagged_le h
    have hread (v : Json) : ofJson? (d + 1) (tagged "float" v) = v.float?.map number := rfl
    rw [toJson, hread, float?_ofFloat (hfinite x (List.mem_singleton_self x)), Option.map_some]
  | constant c =>
    obtain ⟨d, rfl, -⟩ := exists_of_depth_tagged_le h
    have hread (v : Json) : ofJson? (d + 1) (tagged "defined" v) =
      (Constant.ofJson? d v).map constant := rfl
    rw [toJson, hread, Constant.ofJson?_toJson, Option.map_some]
  | remaining => cases d <;> rfl
  | slot s =>
    obtain ⟨d, rfl, -⟩ := exists_of_depth_tagged_le h
    have hread (v : Json) : ofJson? (d + 1) (tagged "var" v) = (Slot.ofJson? d v).map slot := rfl
    rw [toJson, hread, Slot.ofJson?_toJson, Option.map_some]
  | neg a ih | opposite a ih =>
    rw [toJson] at h ⊢
    obtain ⟨d, rfl, ha⟩ := exists_of_depth_tagged_le h
    exact ofJson?_unary (by simp) (ih hfinite ha)
  | add a b iha ihb | sub a b iha ihb | mul a b iha ihb | div a b iha ihb =>
    rw [toJson] at h ⊢
    obtain ⟨d, rfl, harray⟩ := exists_of_depth_tagged_le h
    obtain ⟨d, rfl, hitems⟩ := exists_of_depth_array_le harray
    obtain ⟨ha, hb⟩ := List.forall_mem_append.1 hfinite
    exact ofJson?_binary (by simp) (iha ha (hitems _ (by simp))) (ihb hb (hitems _ (by simp)))
  | direction p | distance p =>
    rw [toJson] at h ⊢
    obtain ⟨d, rfl, hp⟩ := exists_of_depth_tagged_le h
    exact ofJson?_place (by simp) (Target.ofJson?_toJson hp)
  | directionBetween p q | distanceBetween p q =>
    rw [toJson] at h ⊢
    obtain ⟨d, rfl, harray⟩ := exists_of_depth_tagged_le h
    obtain ⟨d, rfl, hitems⟩ := exists_of_depth_array_le harray
    exact ofJson?_places (by simp) (Target.ofJson?_toJson (hitems _ (by simp)))
      (Target.ofJson?_toJson (hitems _ (by simp)))
  | nearer a b p iha ihb | stepDrill a b p iha ihb =>
    rw [toJson] at h ⊢
    obtain ⟨d, rfl, hrecord⟩ := exists_of_depth_tagged_le h
    obtain ⟨d, rfl, hfields⟩ := exists_of_depth_record_le hrecord
    obtain ⟨ha, hb⟩ := List.forall_mem_append.1 hfinite
    simp only [List.forall_mem_cons] at hfields
    obtain ⟨hda, hdb, hdp, -⟩ := hfields
    exact ofJson?_mixed (by simp) (iha ha hda) (ihb hb hdb) (Target.ofJson?_toJson hdp)

theorem toJson_ne_null (e : Expr) : e.toJson ≠ .null := by
  cases e <;> exact nofun

theorem spelled_toJson {c : Codec} {xs : List Float} (hc : c.Faithful xs) {e : Expr}
    (h : e.literals ⊆ xs) : c.Spelled e.toJson := by
  have htarget (p : Target) : c.Spelled p.toJson := p.spelled_toJson hc
  induction e with
  | number x => exact hc.spelled_tagged _ (hc.spelled_ofFloat (h (List.mem_singleton_self x)))
  | constant _ | slot _ => exact hc.spelled_tagged _ (hc.spelled_text _)
  | remaining => exact hc.spelled_text _
  | neg a ih | opposite a ih => exact hc.spelled_tagged _ (ih h)
  | add a b iha ihb | sub a b iha ihb | mul a b iha ihb | div a b iha ihb =>
    obtain ⟨ha, hb⟩ := List.append_subset.1 h
    exact hc.spelled_tagged _ (.array (by simp [iha ha, ihb hb]))
  | direction p | distance p => exact hc.spelled_tagged _ (htarget p)
  | directionBetween p q | distanceBetween p q =>
    exact hc.spelled_tagged _ (.array (by simp [htarget]))
  | nearer a b p iha ihb | stepDrill a b p iha ihb =>
    obtain ⟨ha, hb⟩ := List.append_subset.1 h
    exact hc.spelled_tagged _ (hc.spelled_record (by simp [iha ha, ihb hb, htarget]))

end Expr

/-! ## Actions and programs -/

namespace Action

def exprs : Action → List Expr
  | assign _ value => [value]
  | countermarch _ _ steps first second beats => [steps, first, second, beats]
  | diagonalCountermarch _ _ beats | straightCountermarch _ _ beats | evenly beats _ => [beats]
  | fountain first second size₁ size₂ _ => [first, second] ++ size₁.toList ++ size₂.toList
  | forward steps direction | stand steps direction | wheel direction steps _ _ =>
    [steps, direction]
  | toGrid e | standOut e => [e]
  | march size steps direction facing => [size, steps, direction] ++ facing.toList
  | _ => []

def targets : Action → List Target
  | countermarch p q .. | diagonalCountermarch p q _ | straightCountermarch p q _ => [p, q]
  | diagonalFirst p | straightFirst p | eastWestFirst p | northSouthFirst p | evenly _ p
  | fountain _ _ _ _ p | forwardTo p | jump p | wheel _ _ p _ => [p]
  | _ => []

def literals (a : Action) : List Float := a.exprs.flatMap Expr.literals

theorem optionalField_eq (name : String) (e : Option Expr) :
    optionalField name e = ((e.map Expr.toJson).map (name, ·)).toList := by
  cases e <;> rfl

theorem exists_toJson_eq {a : Action} (h : a ≠ blam) :
    ∃ tag fields, a.toJson = tagged tag (record fields) ∧
      (∀ e ∈ a.exprs, e.toJson ∈ fields.map Prod.snd) ∧
      ∀ p ∈ a.targets, p.toJson ∈ fields.map Prod.snd := by
  cases a with
  | blam => exact absurd rfl h
  | fountain a b size₁ size₂ p =>
    refine ⟨_, _, rfl, ?_, ?_⟩
    · cases size₁ <;> cases size₂ <;> simp [exprs, optionalField]
    · simp [targets]
  | march size steps direction facing =>
    refine ⟨_, _, rfl, ?_, ?_⟩
    · cases facing <;> simp [exprs, optionalField]
    · simp [targets]
  | _ => exact ⟨_, _, rfl, by simp [exprs], by simp [targets]⟩

theorem exists_of_depth_le {a : Action} (hblam : a ≠ blam) (hfinite : ∀ x ∈ a.literals, x.isFinite)
    {d : Nat} (h : a.toJson.depth ≤ d) :
    ∃ inner, d = inner + 2 ∧ (∀ e ∈ a.exprs, Expr.ofJson? inner e.toJson = some e) ∧
      ∀ p ∈ a.targets, Target.ofJson? inner p.toJson = some p := by
  obtain ⟨tag, fields, htoJson, hexprs, htargets⟩ := exists_toJson_eq hblam
  rw [htoJson] at h
  obtain ⟨d, rfl, hrecord⟩ := exists_of_depth_tagged_le h
  obtain ⟨d, rfl, hfields⟩ := exists_of_depth_record_le hrecord
  have hdepth (v : Json) (hv : v ∈ fields.map Prod.snd) : v.depth ≤ d := by
    obtain ⟨f, hf, rfl⟩ := List.mem_map.1 hv
    exact hfields f hf
  refine ⟨d, rfl, fun e he => ?_, fun p hp => Target.ofJson?_toJson (hdepth _ (htargets p hp))⟩
  exact Expr.ofJson?_toJson (fun x hx => hfinite x (List.mem_flatMap.2 ⟨e, he, hx⟩))
    (hdepth _ (hexprs e he))

theorem optional?_expr {d : Nat} {e : Option Expr}
    (h : ∀ a ∈ e.toList, Expr.ofJson? d a.toJson = some a) :
    optional? (Expr.ofJson? d) (e.map Expr.toJson) = some e :=
  optional?_map fun a ha => ⟨a.toJson_ne_null, h a (by simpa using ha)⟩

section Reading

variable {d : Nat} {tag : String} {e : Expr} {p q : Target}

theorem ofJson?_place {f : Target → Action}
    (h : (tag, f) ∈ [("dm_hs", diagonalFirst), ("hs_dm", straightFirst), ("ew_ns", eastWestFirst),
      ("ns_ew", northSouthFirst), ("fm_to", forwardTo), ("magic", jump)])
    (hp : Target.ofJson? d p.toJson = some p) :
    ofJson? (d + 2) (tagged tag (record [("point", p.toJson)])) = some (f p) := by
  have hread (v : Json) : ofJson? (d + 2) (tagged tag (record [("point", v)])) =
      (do return f (← Target.ofJson? d v)) := by
    simp only [List.mem_cons, Prod.mk.injEq, List.not_mem_nil, or_false] at h
    rcases h with ⟨rfl, rfl⟩ | ⟨rfl, rfl⟩ | ⟨rfl, rfl⟩ | ⟨rfl, rfl⟩ | ⟨rfl, rfl⟩ | ⟨rfl, rfl⟩ <;>
      rfl
  rw [hread, hp]
  rfl

theorem ofJson?_through {f : Target → Target → Expr → Action}
    (h : (tag, f) ∈ [("dm_counter_march", diagonalCountermarch),
      ("hs_counter_march", straightCountermarch)])
    (hp : Target.ofJson? d p.toJson = some p) (hq : Target.ofJson? d q.toJson = some q)
    (he : Expr.ofJson? d e.toJson = some e) :
    ofJson? (d + 2) (tagged tag (record
      [("start", p.toJson), ("through", q.toJson), ("beats", e.toJson)])) = some (f p q e) := by
  have hread (v w u : Json) : ofJson? (d + 2) (tagged tag (record
      [("start", v), ("through", w), ("beats", u)])) =
      (do return f (← Target.ofJson? d v) (← Target.ofJson? d w) (← Expr.ofJson? d u)) := by
    simp only [List.mem_cons, Prod.mk.injEq, List.not_mem_nil, or_false] at h
    rcases h with ⟨rfl, rfl⟩ | ⟨rfl, rfl⟩ <;> rfl
  rw [hread, hp, hq, he]
  rfl

end Reading

theorem ofJson?_toJson {a : Action} (hfinite : ∀ x ∈ a.literals, x.isFinite) {d : Nat}
    (h : a.toJson.depth ≤ d) : ofJson? d a.toJson = some a := by
  -- the form of an action tells its reader how to go on; what is left are its parts
  by_cases hblam : a = blam
  · subst hblam
    rfl
  obtain ⟨d, rfl, hexprs, htargets⟩ := exists_of_depth_le hblam hfinite h
  cases a <;>
    simp only [exprs, targets, List.forall_mem_cons, List.forall_mem_append] at hexprs htargets
  case blam => exact absurd rfl hblam
  case assign s value =>
    show (do return assign (← Slot.ofJson? d s.toJson) (← Expr.ofJson? d value.toJson)) = _
    simp [Slot.ofJson?_toJson, hexprs]
  case countermarch p q steps first second beats =>
    show (do
      return countermarch (← Target.ofJson? d p.toJson) (← Target.ofJson? d q.toJson)
        (← Expr.ofJson? d steps.toJson) (← Expr.ofJson? d first.toJson)
        (← Expr.ofJson? d second.toJson) (← Expr.ofJson? d beats.toJson)) = _
    simp [hexprs, htargets]
  case diagonalCountermarch p q beats | straightCountermarch p q beats =>
    exact ofJson?_through (by simp) htargets.1 htargets.2.1 hexprs.1
  case diagonalFirst p | straightFirst p | eastWestFirst p | northSouthFirst p | forwardTo p
      | jump p =>
    exact ofJson?_place (by simp) htargets.1
  case evenly beats p =>
    show (do return evenly (← Expr.ofJson? d beats.toJson) (← Target.ofJson? d p.toJson)) = _
    simp [hexprs, htargets]
  case fountain first second size₁ size₂ p =>
    have hread (v w u : Json) (x y : Option Json) :
        ofJson? (d + 2) (tagged "fountain" (record ([("dir1", v), ("dir2", w)] ++
          (x.map ("step1", ·)).toList ++ (y.map ("step2", ·)).toList ++ [("point", u)]))) = (do
        return fountain (← Expr.ofJson? d v) (← Expr.ofJson? d w)
          (← optional? (Expr.ofJson? d) x) (← optional? (Expr.ofJson? d) y)
          (← Target.ofJson? d u)) := by
      cases x <;> cases y <;> rfl
    obtain ⟨⟨⟨hfirst, hsecond, -⟩, hsize₁⟩, hsize₂⟩ := hexprs
    rw [toJson, optionalField_eq, optionalField_eq, hread, optional?_expr hsize₁,
      optional?_expr hsize₂]
    simp [hfirst, hsecond, htargets]
  case forward steps direction =>
    show (do
      return forward (← Expr.ofJson? d steps.toJson) (← Expr.ofJson? d direction.toJson)) = _
    simp [hexprs]
  case toGrid size =>
    show (do return toGrid (← Expr.ofJson? d size.toJson)) = _
    simp [hexprs]
  case march size steps direction facing =>
    have hread (v w u : Json) (x : Option Json) :
        ofJson? (d + 2) (tagged "march" (record ([("step_size", v), ("steps", w), ("dir", u)] ++
          (x.map ("facing", ·)).toList))) = (do
        return march (← Expr.ofJson? d v) (← Expr.ofJson? d w) (← Expr.ofJson? d u)
          (← optional? (Expr.ofJson? d) x)) := by
      cases x <;> rfl
    obtain ⟨⟨hsize, hsteps, hdirection, -⟩, hfacing⟩ := hexprs
    rw [toJson, optionalField_eq, hread, optional?_expr hfacing]
    simp [hsize, hsteps, hdirection]
  case stand beats direction =>
    show (do
      return stand (← Expr.ofJson? d beats.toJson) (← Expr.ofJson? d direction.toJson)) = _
    simp [hexprs]
  case standOut direction =>
    show (do return standOut (← Expr.ofJson? d direction.toJson)) = _
    simp [hexprs]
  case wheel angle steps p backwards =>
    show (do
      return wheel (← Expr.ofJson? d angle.toJson) (← Expr.ofJson? d steps.toJson)
        (← Target.ofJson? d p.toJson) (← some backwards)) = _
    simp [hexprs, htargets]

theorem spelled_optionalField {c : Codec} (name : String) {e : Option Expr}
    (h : ∀ a ∈ e.toList, c.Spelled a.toJson) : ∀ f ∈ optionalField name e, c.Spelled f.2 := by
  cases e <;> simp_all [optionalField]

theorem spelled_toJson {c : Codec} {xs : List Float} (hc : c.Faithful xs) {a : Action}
    (h : a.literals ⊆ xs) : c.Spelled a.toJson := by
  have hexprs : ∀ e ∈ a.exprs, c.Spelled e.toJson := fun e he =>
    Expr.spelled_toJson hc fun x hx => h (List.mem_flatMap.2 ⟨e, he, hx⟩)
  have htarget (p : Target) : c.Spelled p.toJson := p.spelled_toJson hc
  have hslot (s : Slot) : c.Spelled s.toJson := hc.spelled_text _
  cases a <;> simp only [exprs, List.forall_mem_cons, List.forall_mem_append] at hexprs
  case blam => exact hc.spelled_text _
  case fountain first second size₁ size₂ p =>
    obtain ⟨⟨⟨hfirst, hsecond, -⟩, hsize₁⟩, hsize₂⟩ := hexprs
    refine hc.spelled_tagged _ (hc.spelled_record ?_)
    simp only [List.forall_mem_append]
    refine ⟨⟨⟨?_, spelled_optionalField _ hsize₁⟩, spelled_optionalField _ hsize₂⟩, ?_⟩
    · simp [hfirst, hsecond]
    · simp [htarget]
  case march size steps direction facing =>
    obtain ⟨⟨hsize, hsteps, hdirection, -⟩, hfacing⟩ := hexprs
    refine hc.spelled_tagged _ (hc.spelled_record ?_)
    refine List.forall_mem_append.2 ⟨?_, spelled_optionalField _ hfacing⟩
    simp [hsize, hsteps, hdirection]
  case wheel angle steps p backwards =>
    refine hc.spelled_tagged _ (hc.spelled_record ?_)
    simp [hexprs, htarget, Codec.Spelled.bool]
  all_goals
    refine hc.spelled_tagged _ (hc.spelled_record ?_)
    simp [hslot, hexprs, htarget]

end Action

theorem Loc.ofJson?_toJson {d : Nat} {l : Loc} (h : l.toJson.depth ≤ d) :
    ofJson? d l.toJson = some l := by
  obtain ⟨d, rfl, -⟩ := exists_of_depth_record_le h
  have hread (v w : Json) : ofJson? (d + 1) (record [("line", v), ("col", w)]) =
      (do return ⟨← v.uint32?, ← w.uint32?⟩) := rfl
  rw [toJson, hread, uint32?_ofNat, uint32?_ofNat]
  rfl

theorem Loc.spelled_toJson {c : Codec} {xs : List Float} (hc : c.Faithful xs) (l : Loc) :
    c.Spelled l.toJson := by
  have hword (n : UInt32) : c.Spelled (ofNat n.toNat) := hc.spelled_ofInt (word_uint32 n)
  exact hc.spelled_record (by simp [hword])

namespace Statement

theorem toJson_eq (s : Statement) : s.toJson =
    record (("kind", s.action.toJson) :: ((s.loc.map Loc.toJson).map ("loc", ·)).toList) := by
  rw [toJson, Option.map_map]
  rfl

theorem ofJson?_toJson {s : Statement} (hfinite : ∀ x ∈ s.action.literals, x.isFinite) {d : Nat}
    (h : s.toJson.depth ≤ d) : ofJson? d s.toJson = some s := by
  obtain ⟨d, rfl, hfields⟩ := exists_of_depth_record_le h
  have hread (v : Json) (x : Option Json) :
      ofJson? (d + 1) (record (("kind", v) :: (x.map ("loc", ·)).toList)) =
        (do return ⟨← Action.ofJson? d v, ← optional? (Loc.ofJson? d) x⟩) := by
    cases x <;> rfl
  have haction := Action.ofJson?_toJson hfinite (hfields ("kind", _) (List.mem_cons_self ..))
  have hloc : optional? (Loc.ofJson? d) (s.loc.map Loc.toJson) = some s.loc := by
    refine optional?_map fun l hl => ⟨nofun, Loc.ofJson?_toJson ?_⟩
    exact hfields ("loc", l.toJson) (List.mem_cons_of_mem _ (by simp [Option.mem_def.1 hl]))
  rw [toJson_eq, hread, haction, hloc]
  rfl

theorem spelled_toJson {c : Codec} {xs : List Float} (hc : c.Faithful xs) {s : Statement}
    (h : s.action.literals ⊆ xs) : c.Spelled s.toJson := by
  have hloc (l : Loc) : c.Spelled l.toJson := l.spelled_toJson hc
  refine hc.spelled_record (List.forall_mem_cons.2 ⟨Action.spelled_toJson hc h, ?_⟩)
  cases s.loc <;> simp [hloc]

end Statement

theorem Json.mapM_toJson {α : Type} {read : Json → Option α} {write : α → Json} {xs : List α}
    (h : ∀ x ∈ xs, read (write x) = some x) : (xs.map write).mapM read = some xs := by
  induction xs with
  | nil => rfl
  | cons x xs ih =>
    obtain ⟨hx, hxs⟩ := List.forall_mem_cons.1 h
    rw [List.map_cons, List.mapM_cons, hx, ih hxs]
    rfl

theorem Json.list?_array {α : Type} {read : Nat → Json → Option α} {write : α → Json}
    {xs : List α} {d : Nat} (hdepth : (array (xs.map write)).depth ≤ d)
    (h : ∀ x ∈ xs, ∀ inner, (write x).depth ≤ inner → read inner (write x) = some x) :
    list? read d (array (xs.map write)) = some xs := by
  obtain ⟨d, rfl, hitems⟩ := exists_of_depth_array_le hdepth
  exact mapM_toJson fun x hx => h x hx d (hitems _ (List.mem_map_of_mem hx))

def Program.literals (p : Program) : List Float := p.flatMap (·.action.literals)

theorem Program.ofJson?_toJson {p : Program} (hfinite : ∀ x ∈ p.literals, x.isFinite) {d : Nat}
    (h : p.toJson.depth ≤ d) : ofJson? d p.toJson = some p := by
  refine list?_array h fun s hs inner hdepth => Statement.ofJson?_toJson (fun x hx => ?_) hdepth
  exact hfinite x (List.mem_flatMap.2 ⟨s, hs, hx⟩)

theorem Program.spelled_toJson {c : Codec} {xs : List Float} (hc : c.Faithful xs) {p : Program}
    (h : p.literals ⊆ xs) : c.Spelled p.toJson :=
  Codec.spelled_array fun s hs => Statement.spelled_toJson hc fun _ hx =>
    h (List.mem_flatMap.2 ⟨s, hs, hx⟩)

end FieldShow
