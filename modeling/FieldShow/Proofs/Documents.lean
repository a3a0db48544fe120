import FieldShow.Proofs.Decimals
import FieldShow.Proofs.Lexing

/-!
The text layer that a program runs with is faithful. Whatever the layout, as long as its breaks are
blanks, the tokens of a value are found one by one, and the reader builds the value from them.
-/

namespace FieldShow.Json

mutual

def tokens : Json → List Token
  | .null => [.null]
  | .bool b => [.bool b]
  | .number x => [.number x.numeral]
  | .string t => [.string t]
  | .array [] => [.leftBracket, .rightBracket]
  | .array (v :: rest) => .leftBracket :: (tokens v ++ itemTokens rest)
  | .object [] => [.leftBrace, .rightBrace]
  | .object ((key, v) :: rest) =>
    .leftBrace :: .string key :: .colon :: (tokens v ++ memberTokens rest)

def itemTokens : List Json → List Token
  | [] => [.rightBracket]
  | v :: rest => .comma :: (tokens v ++ itemTokens rest)

def memberTokens : List (Text × Json) → List Token
  | [] => [.rightBrace]
  | (key, v) :: rest => .comma :: .string key :: .colon :: (tokens v ++ memberTokens rest)

end

/-! ## From the text to the tokens -/

theorem blank_iff {c : Char} : blank c ↔ c = ' ' ∨ c = '\t' ∨ c = '\n' ∨ c = '\r' := by
  simp [blank, or_assoc]

theorem readToken_blank {c : Char} (h : blank c) (s : List Char) : readToken (c :: s) = none := by
  rcases blank_iff.1 h with rfl | rfl | rfl | rfl <;> rfl

theorem tokensFrom_token {s rest : List Char} {t : Token} (h : readToken s = some (t, rest))
    (done : List Token) : tokensFrom done s = tokensFrom (t :: done) rest := by
  cases s with
  | nil => cases h
  | cons c s =>
    have hc : ¬blank c := by
      intro hblank
      rw [readToken_blank hblank] at h
      cases h
    rw [tokensFrom, if_neg hc]
    split
    · next t' rest' h' =>
      obtain ⟨rfl, rfl⟩ := by simpa using h'.symm.trans h
      rfl
    · next h' => cases h'.symm.trans h

theorem tokensFrom_blanks {pad : List Char} (h : ∀ c ∈ pad, blank c) (done : List Token)
    (s : List Char) : tokensFrom done (pad ++ s) = tokensFrom done s := by
  induction pad with
  | nil => rfl
  | cons c pad ih =>
    obtain ⟨hc, hpad⟩ := List.forall_mem_cons.1 h
    rw [List.cons_append, tokensFrom, if_pos hc, ih hpad]

theorem Ends.blanks {pad s : List Char} (h : ∀ c ∈ pad, blank c) (hs : Ends s) :
    Ends (pad ++ s) := by
  cases pad with
  | nil => exact hs
  | cons c pad =>
    intro d hd
    obtain rfl : c = d := by simpa using hd
    rcases blank_iff.1 (h c (List.mem_cons_self ..)) with rfl | rfl | rfl | rfl <;> decide

/-- Breaks are blanks, and the mark after a key is a colon with blanks after it. -/
structure Layout.Sound (l : Layout) : Prop where
  newline : ∀ depth, ∀ c ∈ l.newline depth, blank c
  colon : ∃ pad, l.colon = ':' :: pad ∧ ∀ c ∈ pad, blank c

theorem Layout.sound_indented : indented.Sound where
  newline depth c hc := by
    rcases List.mem_cons.1 hc with rfl | hc
    · rfl
    · rw [List.eq_of_mem_replicate hc]
      rfl
  colon := ⟨[' '], rfl, List.forall_mem_singleton.2 rfl⟩

/-- The text of `v` yields the tokens of `v`, whatever follows. -/
def Scans (l : Layout) (v : Json) : Prop :=
  ∀ (depth : Nat) (done : List Token) (rest : List Char), Ends rest →
    tokensFrom done (v.chars l depth ++ rest) = tokensFrom (v.tokens.reverse ++ done) rest

theorem ends_punctuation {c : Char} (h : c ∈ [',', ']', '\x7d']) (s : List Char) :
    Ends (c :: s) := by
  intro d hd
  obtain rfl : c = d := by simpa using hd
  simp only [List.mem_cons, List.not_mem_nil, or_false] at h
  rcases h with rfl | rfl | rfl <;> decide

section Scanning

variable {l : Layout} (hl : l.Sound)
include hl

theorem ends_items (depth : Nat) (items : List Json) (rest : List Char) :
    Ends (itemChars l depth items ++ (l.newline depth ++ ']' :: rest)) := by
  cases items with
  | nil =>
    rw [itemChars, List.nil_append]
    exact Ends.blanks (hl.newline depth) (ends_punctuation (by decide) rest)
  | cons v items => exact ends_punctuation (by decide) _

theorem ends_members (depth : Nat) (members : List (Text × Json)) (rest : List Char) :
    Ends (memberChars l depth members ++ (l.newline depth ++ '\x7d' :: rest)) := by
  cases members with
  | nil =>
    rw [memberChars, List.nil_append]
    exact Ends.blanks (hl.newline depth) (ends_punctuation (by decide) rest)
  | cons m members => exact ends_punctuation (by decide) _

theorem tokensFrom_items {items : List Json} (h : ∀ v ∈ items, Scans l v) (depth : Nat)
    (done : List Token) (rest : List Char) :
    tokensFrom done (itemChars l depth items ++ (l.newline depth ++ ']' :: rest)) =
      tokensFrom ((itemTokens items).reverse ++ done) rest := by
  induction items generalizing done with
  | nil =>
    rw [itemChars, List.nil_append, tokensFrom_blanks (hl.newline depth)]
    exact tokensFrom_token rfl done
  | cons v items ih =>
    obtain ⟨hv, hitems⟩ := List.forall_mem_cons.1 h
    have hcomma (s : List Char) : readToken (',' :: s) = some (.comma, s) := rfl
    simp only [itemChars, itemTokens, List.cons_append, List.append_assoc]
    rw [tokensFrom_token (hcomma _), tokensFrom_blanks (hl.newline _),
      hv _ _ _ (ends_items hl depth items rest), ih hitems]
    simp

theorem tokensFrom_member (key : Text) {v : Json} (hv : Scans l v) (depth : Nat)
    (done : List Token) {rest : List Char} (hrest : Ends rest) :
    tokensFrom done (quote key ++ (l.colon ++ (v.chars l depth ++ rest))) =
      tokensFrom (v.tokens.reverse ++ .colon :: .string key :: done) rest := by
  obtain ⟨pad, hpad, hblank⟩ := hl.colon
  have hcolon (s : List Char) : readToken (':' :: s) = some (.colon, s) := rfl
  rw [tokensFrom_token (readToken_quote key _), hpad, List.cons_append,
    tokensFrom_token (hcolon _), tokensFrom_blanks hblank, hv depth _ rest hrest]

theorem tokensFrom_members {members : List (Text × Json)} (h : ∀ m ∈ members, Scans l m.2)
    (depth : Nat) (done : List Token) (rest : List Char) :
    tokensFrom done (memberChars l depth members ++ (l.newline depth ++ '\x7d' :: rest)) =
      tokensFrom ((memberTokens members).reverse ++ done) rest := by
  induction members generalizing done with
  | nil =>
    rw [memberChars, List.nil_append, tokensFrom_blanks (hl.newline depth)]
    exact tokensFrom_token rfl done
  | cons m members ih =>
    obtain ⟨key, v⟩ := m
    obtain ⟨hv, hmembers⟩ := List.forall_mem_cons.1 h
    have hcomma (s : List Char) : readToken (',' :: s) = some (.comma, s) := rfl
    simp only [memberChars, memberTokens, List.cons_append, List.append_assoc]
    rw [tokensFrom_token (hcomma _), tokensFrom_blanks (hl.newline _),
      tokensFrom_member hl key hv _ _ (ends_members hl depth members rest), ih hmembers]
    simp

theorem scans_array {items : List Json} (h : ∀ v ∈ items, Scans l v) : Scans l (array items) := by
  intro depth done rest _
  have hopen (s : List Char) : readToken ('[' :: s) = some (.leftBracket, s) := rfl
  cases items with
  | nil =>
    rw [chars, List.cons_append, tokensFrom_token (hopen _)]
    exact tokensFrom_token rfl _
  | cons v items =>
    obtain ⟨hv, hitems⟩ := List.forall_mem_cons.1 h
    simp only [chars, tokens, List.cons_append, List.append_assoc, List.nil_append]
    rw [tokensFrom_token (hopen _), tokensFrom_blanks (hl.newline _),
      hv _ _ _ (ends_items hl depth items rest), tokensFrom_items hl hitems]
    simp

theorem scans_object {members : List (Text × Json)} (h : ∀ m ∈ members, Scans l m.2) :
    Scans l (object members) := by
  intro depth done rest _
  have hopen (s : List Char) : readToken ('\x7b' :: s) = some (.leftBrace, s) := rfl
  cases members with
  | nil =>
    rw [chars, List.cons_append, tokensFrom_token (hopen _)]
    exact tokensFrom_token rfl _
  | cons m members =>
    obtain ⟨key, v⟩ := m
    obtain ⟨hv, hmembers⟩ := List.forall_mem_cons.1 h
    simp only [chars, tokens, List.cons_append, List.append_assoc, List.nil_append]
    rw [tokensFrom_token (hopen _), tokensFrom_blanks (hl.newline _),
      tokensFrom_member hl key hv _ _ (ends_members hl depth members rest),
      tokensFrom_members hl hmembers]
    simp

end Scanning

theorem scans_string (l : Layout) (t : Text) : Scans l (string t) :=
  fun _ done rest _ => tokensFrom_token (readToken_quote t rest) done

theorem isDigit_of_mem_numeral (x : Number) : ∀ c ∈ x.numeral.fraction, c.isDigit := by
  cases x with
  | int n => exact nofun
  | float x => exact Numeral.isDigit_of_mem_ofDecimal _ _

/-- Only the text of a number does not tell itself where it ends. -/
theorem scans_number (l : Layout) (x : Number) : Scans l (number x) :=
  fun _ done _ hrest => tokensFrom_token (readToken_numeral _ (isDigit_of_mem_numeral x) hrest) done

theorem Scans.tokens?_chars {l : Layout} {v : Json} (hv : Scans l v) (depth : Nat) :
    tokens? (v.chars l depth) = some v.tokens := by
  have h := hv depth [] [] (by simp [Ends])
  rw [List.append_nil, List.append_nil] at h
  rw [tokens?, h, tokensFrom, List.reverse_reverse]

/-! ## From the tokens to the value -/

namespace Reader

def Reads (v : Json) : Prop :=
  ∀ frames, v.tokens.foldlM step ⟨frames, .value⟩ = some ⟨frames, .complete v⟩

theorem tokens_cons {v : Json} : ∃ t ts, v.tokens = t :: ts ∧ t ≠ .rightBracket := by
  rcases v with _ | _ | _ | _ | (_ | _) | (_ | ⟨⟨_, _⟩, _⟩) <;>
    exact ⟨_, _, by rw [tokens], by simp⟩

theorem Reads.first {v : Json} (hv : Reads v) (frames : List Frame) :
    v.tokens.foldlM step ⟨frames, .first⟩ = some ⟨frames, .complete v⟩ := by
  obtain ⟨t, ts, hts, ht⟩ := tokens_cons (v := v)
  have hstep : step ⟨frames, .first⟩ t = step ⟨frames, .value⟩ t := by
    cases t <;> first | rfl | exact absurd rfl ht
  have h := hv frames
  rw [hts, List.foldlM_cons] at h ⊢
  rw [hstep, h]

theorem foldlM_items {items : List Json} (h : ∀ v ∈ items, Reads v) (frames : List Frame)
    (done : List Json) (v : Json) :
    (itemTokens items).foldlM step ⟨.items done :: frames, .complete v⟩ =
      some ⟨frames, .complete (.array (done.reverse ++ v :: items))⟩ := by
  induction items generalizing done v with
  | nil =>
    have hclose : step ⟨.items done :: frames, .complete v⟩ .rightBracket =
      some ⟨frames, .complete (.array (v :: done).reverse)⟩ := rfl
    rw [itemTokens, List.foldlM_cons, hclose, List.reverse_cons]
    rfl
  | cons w items ih =>
    obtain ⟨hw, hitems⟩ := List.forall_mem_cons.1 h
    have hcomma : step ⟨.items done :: frames, .complete v⟩ .comma =
      some ⟨.items (v :: done) :: frames, .value⟩ := rfl
    rw [itemTokens, List.foldlM_cons, hcomma, Option.bind_eq_bind, Option.bind_some,
      List.foldlM_append, hw, Option.bind_eq_bind, Option.bind_some, ih hitems, List.reverse_cons,
      List.append_assoc, List.singleton_append]

theorem foldlM_members {members : List (Text × Json)} (h : ∀ m ∈ members, Reads m.2)
    (frames : List Frame) (done : List (Text × Json)) (key : Text) (v : Json) :
    (memberTokens members).foldlM step ⟨.members done key :: frames, .complete v⟩ =
      some ⟨frames, .complete (.object (done.reverse ++ (key, v) :: members))⟩ := by
  induction members generalizing done key v with
  | nil =>
    have hclose : step ⟨.members done key :: frames, .complete v⟩ .rightBrace =
      some ⟨frames, .complete (.object ((key, v) :: done).reverse)⟩ := rfl
    rw [memberTokens, List.foldlM_cons, hclose, List.reverse_cons]
    rfl
  | cons m members ih =>
    obtain ⟨next, w⟩ := m
    obtain ⟨hw, hmembers⟩ := List.forall_mem_cons.1 h
    have hcomma : step ⟨.members done key :: frames, .complete v⟩ .comma =
      some ⟨frames, .key ((key, v) :: done) false⟩ := rfl
    have hkey : step ⟨frames, .key ((key, v) :: done) false⟩ (.string next) =
      some ⟨frames, .colon ((key, v) :: done) next⟩ := rfl
    have hcolon : step ⟨frames, .colon ((key, v) :: done) next⟩ .colon =
      some ⟨.members ((key, v) :: done) next :: frames, .value⟩ := rfl
    simp only [memberTokens, List.foldlM_cons, List.foldlM_append, hcomma, hkey, hcolon,
      Option.bind_eq_bind, Option.bind_some]
    rw [hw, Option.bind_some, ih hmembers, List.reverse_cons, List.append_assoc,
      List.singleton_append]

theorem reads_array {items : List Json} (h : ∀ v ∈ items, Reads v) : Reads (array items) := by
  intro frames
  cases items with
  | nil => rfl
  | cons v items =>
    obtain ⟨hv, hitems⟩ := List.forall_mem_cons.1 h
    have hopen : step ⟨frames, .value⟩ .leftBracket = some ⟨.items [] :: frames, .first⟩ := rfl
    rw [tokens, List.foldlM_cons, hopen, Option.bind_eq_bind, Option.bind_some,
      List.foldlM_append, hv.first, Option.bind_eq_bind, Option.bind_some, foldlM_items hitems]
    rfl

theorem reads_object {members : List (Text × Json)} (h : ∀ m ∈ members, Reads m.2) :
    Reads (object members) := by
  intro frames
  cases members with
  | nil => rfl
  | cons m members =>
    obtain ⟨key, v⟩ := m
    obtain ⟨hv, hmembers⟩ := List.forall_mem_cons.1 h
    have hopen : step ⟨frames, .value⟩ .leftBrace = some ⟨frames, .key [] true⟩ := rfl
    have hkey : step ⟨frames, .key [] true⟩ (.string key) = some ⟨frames, .colon [] key⟩ := rfl
    have hcolon : step ⟨frames, .colon [] key⟩ .colon =
      some ⟨.members [] key :: frames, .value⟩ := rfl
    simp only [tokens, List.foldlM_cons, List.foldlM_append, hopen, hkey, hcolon,
      Option.bind_eq_bind, Option.bind_some]
    rw [hv, Option.bind_some, foldlM_members hmembers]
    rfl

end Reader

open Reader

theorem parse?_pretty {v : Json} (hscans : Scans .indented v) (hreads : Reads v) :
    parse? v.pretty = some v := by
  rw [parse?, pretty, String.toList_ofList, hscans.tokens?_chars, Option.bind_eq_bind,
    Option.bind_some, ofTokens?, Reader.start, hreads []]
  rfl

theorem parse?_number (x : Number) : parse? (number x).pretty = some (number x.numeral.value) := by
  rw [parse?, pretty, String.toList_ofList, (scans_number .indented x).tokens?_chars]
  rfl

namespace Codec

theorem standard_keeps {v : Json} (hscans : Scans .indented v) (hreads : Reads v) :
    standard.Keeps v :=
  parse?_pretty hscans hreads

theorem standard_keeps_number {x : Number} :
    standard.Keeps (.number x) ↔ x.numeral.value = x := by
  show Json.parse? (Json.number x).pretty = some (Json.number x) ↔ _
  rw [parse?_number, Option.some.injEq, Json.number.injEq]

theorem Spelled.scans {l : Layout} (hl : l.Sound) {v : Json} (hv : standard.Spelled v) :
    Scans l v := by
  induction hv with
  | null =>
    intro depth done rest _
    exact tokensFrom_token rfl done
  | bool b =>
    intro depth done rest _
    cases b <;> exact tokensFrom_token rfl done
  | number _ => exact scans_number l _
  | string _ => exact scans_string l _
  | array _ ih => exact scans_array hl ih
  | object _ _ ih => exact scans_object hl ih

theorem Spelled.reads {v : Json} (hv : standard.Spelled v) : Reads v := by
  induction hv with
  | null | bool _ | string _ => exact fun _ => rfl
  | number h =>
    intro frames
    show some (⟨frames, .complete (.number _)⟩ : Reader) = _
    rw [standard_keeps_number.1 h]
  | array _ ih => exact reads_array ih
  | object _ _ ih => exact reads_object ih

theorem standard_faithful (xs : List Float) : standard.Faithful xs where
  string s := standard_keeps (scans_string .indented (some s)) fun _ => rfl
  int h := standard_keeps_number.2 (Numeral.value_ofInt h)
  float _ hfinite := by
    rw [ofFloat, if_pos hfinite]
    exact standard_keeps_number.2 (Numeral.value_ofFloat hfinite)
  document h _ := standard_keeps (h.scans Layout.sound_indented) h.reads

end Codec

end FieldShow.Json
