import FieldShow.Proofs.Documents
import FieldShow.Proofs.Scripts
import FieldShow.Show.Json

/-!
The JSON form of a show, read back. On a faithful text layer a show that is printed becomes the same
show again.
-/

namespace FieldShow

open Json

theorem Vec.ofJson?_toJson {d : Nat} {v : Vec} (h : v.toJson.depth ≤ d) :
    ofJson? d v.toJson = some v := by
  obtain ⟨d, rfl, -⟩ := exists_of_depth_record_le h
  have hread (x y : Json) : ofJson? (d + 1) (record [("x", x), ("y", y)]) =
      (do return ⟨← x.int32?, ← y.int32?⟩) := rfl
  rw [toJson, hread, int32?_ofInt, int32?_ofInt]
  rfl

theorem Vec.spelled_toJson {c : Codec} {xs : List Float} (hc : c.Faithful xs) (v : Vec) :
    c.Spelled v.toJson := by
  have hword (n : Int32) : c.Spelled (ofInt n.toInt) := hc.spelled_ofInt (word_int32 n)
  exact hc.spelled_record (by simp [hword])

theorem Symbol.ofJson?_toJson (d : Nat) (s : Symbol) : ofJson? d s.toJson = some s := by
  cases s <;> rfl

theorem Symbol.mem_all (s : Symbol) : s ∈ all := by
  cases s <;> decide

namespace Placement

def refToJson (r : Option Vec) : Json := (r.map Vec.toJson).getD .null

theorem optional?_refToJson {d : Nat} {r : Option Vec} (h : (refToJson r).depth ≤ d) :
    optional? (Vec.ofJson? d) (some (refToJson r)) = some r := by
  cases r with
  | none => rfl
  | some v =>
    have hread : ∀ w ∈ some v, w.toJson ≠ .null ∧ Vec.ofJson? d w.toJson = some w := by
      intro w hw
      obtain rfl := Option.mem_some.1 hw
      exact ⟨nofun, Vec.ofJson?_toJson h⟩
    exact optional?_map hread

theorem refsOfJson?_toJson {d : Nat} {refs : Vector (Option Vec) 3}
    (h : (array (refs.toList.map refToJson)).depth ≤ d) :
    refsOfJson? d (array (refs.toList.map refToJson)) = some refs := by
  obtain ⟨d, rfl, hitems⟩ := exists_of_depth_array_le h
  obtain ⟨a, b, c, rfl⟩ : ∃ a b c, refs = #v[a, b, c] := by
    refine ⟨refs[0], refs[1], refs[2], ?_⟩
    ext i hi : 1
    match i, hi with
    | 0, _ | 1, _ | 2, _ => rfl
  have hread (v w u : Json) : refsOfJson? (d + 1) (array [v, w, u]) = (do
      return #v[← optional? (Vec.ofJson? d) (some v), ← optional? (Vec.ofJson? d) (some w),
        ← optional? (Vec.ofJson? d) (some u)]) := rfl
  simp only [Vector.toList_mk, List.map_cons, List.map_nil, List.forall_mem_cons] at hitems ⊢
  obtain ⟨ha, hb, hc, -⟩ := hitems
  rw [hread, optional?_refToJson ha, optional?_refToJson hb, optional?_refToJson hc]
  rfl

theorem ofJson?_toJson {d : Nat} {p : Placement} (h : p.toJson.depth ≤ d) :
    ofJson? d p.toJson = some p := by
  obtain ⟨d, rfl, hfields⟩ := exists_of_depth_record_le h
  simp only [List.forall_mem_cons] at hfields
  obtain ⟨hposition, hrefs, -⟩ := hfields
  have hread (v w u : Json) :
      ofJson? (d + 1) (record [("position", v), ("refs", w), ("symbol", u)]) =
        (do return ⟨← Vec.ofJson? d v, ← refsOfJson? d w, ← Symbol.ofJson? d u⟩) := rfl
  have hwritten : p.toJson = record [("position", p.position.toJson),
      ("refs", array (p.refs.toList.map refToJson)), ("symbol", p.symbol.toJson)] := rfl
  rw [hwritten, hread, Vec.ofJson?_toJson hposition, refsOfJson?_toJson hrefs,
    Symbol.ofJson?_toJson]
  rfl

theorem spelled_toJson {c : Codec} {xs : List Float} (hc : c.Faithful xs) (p : Placement) :
    c.Spelled p.toJson := by
  have href (r : Option Vec) : c.Spelled (refToJson r) := by
    cases r with
    | none => exact .null
    | some v => exact v.spelled_toJson hc
  refine hc.spelled_record (List.forall_mem_cons.2 ⟨p.position.spelled_toJson hc, ?_⟩)
  refine List.forall_mem_cons.2 ⟨Codec.spelled_array fun r _ => href r, ?_⟩
  exact List.forall_mem_singleton.2 (hc.spelled_text _)

end Placement

namespace Book

theorem eq_of_get? {b c : Book} (h : ∀ s, b.get? s = c.get? s) : b = c := by
  obtain ⟨b⟩ := b
  obtain ⟨c⟩ := c
  congr 1
  ext i hi : 1
  match i, hi with
  | 0, _ => exact h .plain
  | 1, _ => exact h .solid
  | 2, _ => exact h .backslash
  | 3, _ => exact h .slash
  | 4, _ => exact h .cross
  | 5, _ => exact h .solidBackslash
  | 6, _ => exact h .solidSlash
  | 7, _ => exact h .solidCross

def literals (b : Book) : List Float := b.entries.flatMap (·.2.literals)

theorem mem_entries {b : Book} {s : Symbol} {p : Program} (h : b.get? s = some p) :
    (s, p) ∈ b.entries :=
  List.mem_filterMap.2 ⟨s, s.mem_all, by rw [h, Option.map_some]⟩

theorem ofMembers?_cons (d : Nat) (start : Book) (s : Symbol) (v : Json)
    (rest : List (Text × Json)) :
    ofMembers? d start ((some s.name, v) :: rest) =
      (Program.ofJson? d v).bind fun p => ofMembers? d (start.insert s p) rest := by
  have hsymbol : Symbol.ofTag? s.name = some s := by cases s <;> rfl
  have hkey : (some s.name >>= Symbol.ofTag?) = some s := hsymbol
  rw [ofMembers?, hkey]
  rfl

theorem ofMembers?_programs {d : Nat} {b : Book} (symbols : List Symbol)
    (h : ∀ s p, b.get? s = some p → Program.ofJson? d p.toJson = some p) (start : Book) :
    ∃ c, ofMembers? d start ((symbols.filterMap fun s => (b.get? s).map (s, ·)).map
        fun (s, p) => (some s.name, p.toJson)) = some c ∧
      ∀ t, c.get? t = if t ∈ symbols then (b.get? t).or (start.get? t) else start.get? t := by
  -- by induction on the symbols: their programs are entered one by one over what was there
  induction symbols generalizing start with
  | nil => exact ⟨start, rfl, fun t => by simp⟩
  | cons s symbols ih =>
    cases hs : b.get? s with
    | none =>
      obtain ⟨c, hc, hget⟩ := ih start
      refine ⟨c, by rw [List.filterMap_cons_none (by rw [hs, Option.map_none]), hc], fun t => ?_⟩
      rw [hget]
      by_cases hts : t = s
      · subst hts
        simp [hs]
      · simp [hts]
    | some p =>
      obtain ⟨c, hc, hget⟩ := ih (start.insert s p)
      refine ⟨c, ?_, fun t => ?_⟩
      · rw [List.filterMap_cons_some (by rw [hs, Option.map_some]), List.map_cons,
          ofMembers?_cons, h s p hs, Option.bind_some, hc]
      · rw [hget]
        by_cases hts : t = s
        · subst hts
          simp [hs, get?_insert_self]
        · simp [hts, get?_insert_of_ne (Ne.symm hts)]

theorem ofJson?_toJson {b : Book} (hfinite : ∀ x ∈ b.literals, x.isFinite) {d : Nat}
    (h : b.toJson.depth ≤ d) : ofJson? d b.toJson = some b := by
  obtain ⟨d, rfl, hfields⟩ := exists_of_depth_record_le h
  have hread (s : Symbol) (p : Program) (hp : b.get? s = some p) :
      Program.ofJson? d p.toJson = some p := by
    have hmem := mem_entries hp
    refine Program.ofJson?_toJson (fun x hx => ?_) (hfields (s.name, p.toJson) ?_)
    · exact hfinite x (List.mem_flatMap.2 ⟨(s, p), hmem, hx⟩)
    · exact List.mem_map.2 ⟨(s, p), hmem, rfl⟩
  obtain ⟨c, hc, hget⟩ := ofMembers?_programs Symbol.all hread empty
  have hmembers : b.toJson = object ((Symbol.all.filterMap fun s => (b.get? s).map (s, ·)).map
      fun (s, p) => (some s.name, p.toJson)) := by
    rw [toJson, record, List.map_map]
    rfl
  have hsame : c = b := by
    apply eq_of_get?
    intro s
    rw [hget, if_pos s.mem_all, get?_empty, Option.or_none]
  rw [hmembers, ofJson?, hc, hsame]

theorem spelled_toJson {c : Codec} {xs : List Float} (hc : c.Faithful xs) {b : Book}
    (h : b.literals ⊆ xs) : c.Spelled b.toJson := by
  refine hc.spelled_record fun f hf => ?_
  obtain ⟨⟨s, p⟩, hmem, rfl⟩ := List.mem_map.1 hf
  exact Program.spelled_toJson hc fun x hx => h (List.mem_flatMap.2 ⟨(s, p), hmem, hx⟩)

end Book

namespace Sheet

theorem ofJson?_toJson {s : Sheet} (hfinite : ∀ x ∈ s.book.literals, x.isFinite) {d : Nat}
    (h : s.toJson.depth ≤ d) : ofJson? d s.toJson = some s := by
  obtain ⟨d, rfl, hfields⟩ := exists_of_depth_record_le h
  simp only [List.forall_mem_cons] at hfields
  obtain ⟨-, -, -, hplacements, hbook, -⟩ := hfields
  have hread (v w x y z : Json) :
      ofJson? (d + 1) (record [("name", v), ("beats", w), ("in_animation", x), ("points", y),
        ("continuities", z)]) = (do
      return ⟨← v.text?, ← w.uint32?, ← x.bool?, ← list? Placement.ofJson? d y,
        ← Book.ofJson? d z⟩) := rfl
  rw [toJson, hread, uint32?_ofNat, list?_array hplacements fun p _ _ => Placement.ofJson?_toJson,
    Book.ofJson?_toJson hfinite hbook]
  rfl

theorem spelled_toJson {c : Codec} {xs : List Float} (hc : c.Faithful xs) {s : Sheet}
    (h : s.book.literals ⊆ xs) : c.Spelled s.toJson := by
  have hbeats := hc.spelled_ofInt (word_uint32 s.beats)
  refine hc.spelled_record ?_
  simp only [List.forall_mem_cons]
  exact ⟨hc.spelled_text _, hbeats, .bool _, Codec.spelled_array fun p _ => p.spelled_toJson hc,
    Book.spelled_toJson hc h, by simp⟩

end Sheet

namespace Show

def literals (s : Show) : List Float := s.sheets.flatMap (·.book.literals)

theorem ofJson?_toJson {s : Show} (hfinite : ∀ x ∈ s.literals, x.isFinite) {d : Nat}
    (h : s.toJson.depth ≤ d) : ofJson? d s.toJson = some s := by
  obtain ⟨d, rfl, hfields⟩ := exists_of_depth_record_le h
  have hsheets := hfields ("sheets", _) (List.mem_singleton_self _)
  have hread (v : Json) : ofJson? (d + 1) (record [("sheets", v)]) =
      (do return ⟨← list? Sheet.ofJson? d v⟩) := rfl
  rw [toJson, hread, list?_array hsheets fun sheet hsheet _ => Sheet.ofJson?_toJson fun x hx =>
    hfinite x (List.mem_flatMap.2 ⟨sheet, hsheet, hx⟩)]
  rfl

theorem spelled_toJson {c : Codec} {xs : List Float} (hc : c.Faithful xs) {s : Show}
    (h : s.literals ⊆ xs) : c.Spelled s.toJson :=
  hc.spelled_record (List.forall_mem_singleton.2 (Codec.spelled_array fun sheet hsheet =>
    Sheet.spelled_toJson hc fun _ hx => h (List.mem_flatMap.2 ⟨sheet, hsheet, hx⟩)))

/-- A valid show whose numbers are finite and whose values nest no deeper than a reader goes is
read back from its text. -/
theorem parse_print {c : Codec} {s : Show} (hc : c.Faithful s.literals) (hvalid : s.Valid)
    (hfinite : ∀ x ∈ s.literals, x.isFinite) (hdepth : s.toJson.depth ≤ maxDepth) :
    parse c (s.print c) = .ok s := by
  have hkept : c.parse? (s.print c) = some s.toJson :=
    hc.document (spelled_toJson hc (List.Subset.refl _)) hdepth
  have hread : read? c (s.print c) = some s := by
    rw [read?, hkept, Option.bind_eq_bind, Option.bind_some, ofJson?_toJson hfinite hdepth]
  have hsound : s.fault? = none := s.fault?_eq_none_iff.2 hvalid
  rw [parse, hread]
  show s.validate = .ok s
  rw [validate, hsound]

/-- A show with fields that are left out, others that are `null`, and numbers that are not short. -/
def scripted : Show :=
  let marcher : Placement := ⟨⟨0, -16⟩, #v[some ⟨32, 48⟩, none, none], .cross⟩
  let book : Book := Book.empty.insert .cross
    [⟨.assign .dof (.sub (.number 0.1) (.neg .remaining)), some ⟨1, 4⟩⟩,
      ⟨.fountain (.direction (.ref 1)) (.constant .north) none (some (.number 1e-300)) .next, none⟩,
      ⟨.stand (.stepDrill (.number 12345678901234567890) (.slot .doh) .start) (.number (-0.0)),
        none⟩,
      ⟨.blam, some ⟨4, 1⟩⟩]
  ⟨[⟨"\t\"Script\"", 24, true, [marcher], book⟩]⟩

theorem parse_print_scripted : Codec.standard.Faithful scripted.literals ∧ scripted.Valid ∧
    (∀ x ∈ scripted.literals, x.isFinite) ∧ scripted.toJson.depth ≤ maxDepth ∧
    parse .standard (scripted.print .standard) = .ok scripted := by
  have hfaithful := Codec.standard_faithful scripted.literals
  have hvalid : scripted.Valid := by decide +kernel
  have hfinite : ∀ x ∈ scripted.literals, x.isFinite := by decide +kernel
  have hdepth : scripted.toJson.depth ≤ maxDepth := by decide +kernel
  exact ⟨hfaithful, hvalid, hfinite, hdepth, parse_print hfaithful hvalid hfinite hdepth⟩

end Show

end FieldShow
