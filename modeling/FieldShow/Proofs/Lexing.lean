import FieldShow.Json.Printer

/-!
Strings and numbers in JSON text. What the printer writes for one of them is read back as it was,
and reading stops where the printer has stopped.
-/

namespace FieldShow.Json

/-- The piece as which a character inside quotes is read back. -/
def pieceOf (c : Char) : Piece :=
  if c < ' ' ∧ c ∉ ['\x08', '\t', '\n', '\x0c', '\r'] then .unit c.toNat else .char c

theorem hex?_hexDigit :
    ∀ n < 32, hex? ['0', '0', hexDigit (n / 16), hexDigit (n % 16)] = some n := by
  decide

theorem toNat_lt_of_lt_blank {c : Char} (h : c < ' ') : c.toNat < 32 := h

theorem readPieces_plain {c : Char} (hquote : c ≠ '"') (hslash : c ≠ '\\') (hcontrol : ¬c < ' ')
    (rest : List Char) (done : List Piece) :
    readPieces (c :: rest) done = readPieces rest (.char c :: done) := by
  have hplain : ¬(c < ' ' ∨ c = '\\') := not_or.2 ⟨hcontrol, hslash⟩
  rw [readPieces.eq_def]
  split
  case h_5 heq =>
    obtain ⟨rfl, rfl⟩ := List.cons.inj heq
    rw [if_neg hplain]
  all_goals simp_all

theorem readPieces_escape (c : Char) (rest : List Char) (done : List Piece) :
    readPieces (escape c ++ rest) done = readPieces rest (pieceOf c :: done) := by
  unfold escape
  split
  case h_8 hquote hslash hb ht hn hf hr =>
    split
    · next hcontrol =>
      have hhex := hex?_hexDigit c.toNat (toNat_lt_of_lt_blank hcontrol)
      have hpiece : pieceOf c = .unit c.toNat := if_pos ⟨hcontrol, by simp_all⟩
      simp only [List.cons_append, List.nil_append, readPieces, hhex, hpiece]
    · next hcontrol =>
      have hpiece : pieceOf c = .char c := if_neg fun h => hcontrol h.1
      rw [hpiece]
      exact readPieces_plain hquote hslash hcontrol rest done
  all_goals rfl

theorem readPieces_flatMap (cs rest : List Char) (done : List Piece) :
    readPieces (cs.flatMap escape ++ '"' :: rest) done =
      some (done.reverse ++ cs.map pieceOf, rest) := by
  induction cs generalizing done with
  | nil => simp [readPieces]
  | cons c cs ih =>
    rw [List.flatMap_cons, List.append_assoc, readPieces_escape, ih, List.reverse_cons,
      List.append_assoc, List.map_cons]
    rfl

theorem join?_unit {n : Nat} (h : n < 0xD800) (rest : List Piece) (done : List Char) :
    join? (.unit n :: rest) done = join? rest (.ofNat n :: done) := by
  have hhigh : isHigh n = false := by
    simp [isHigh]
    omega
  have hlow : isLow n = false := by
    simp [isLow]
    omega
  rcases rest with _ | ⟨_ | m, rest⟩ <;> simp [join?, hhigh, hlow]

theorem join?_pieceOf (cs done : List Char) :
    join? (cs.map pieceOf) done = some (done.reverse ++ cs) := by
  induction cs generalizing done with
  | nil => simp [join?]
  | cons c cs ih =>
    have hstep : join? (pieceOf c :: cs.map pieceOf) done = join? (cs.map pieceOf) (c :: done) := by
      rw [pieceOf]
      split
      · next hcontrol =>
        have hlt : c.toNat < 32 := toNat_lt_of_lt_blank hcontrol.1
        rw [join?_unit (by omega), Char.ofNat_toNat]
      · rfl
    rw [List.map_cons, hstep, ih, List.reverse_cons, List.append_assoc]
    rfl

theorem textOf_pieceOf (s : String) : textOf (s.toList.map pieceOf) = some s := by
  simp [textOf, join?_pieceOf]

theorem readToken_quotation (rest : List Char) :
    readToken ('"' :: rest) =
      (readPieces rest []).map fun (pieces, rest) => (.string (textOf pieces), rest) :=
  rfl

theorem quote_some (s : String) : quote (some s) = '"' :: (s.toList.flatMap escape ++ ['"']) := rfl

theorem readToken_quote (t : Text) (rest : List Char) :
    readToken (quote t ++ rest) = some (.string t, rest) := by
  cases t with
  | none => rfl
  | some s =>
    have hquote : quote (some s) ++ rest = '"' :: (s.toList.flatMap escape ++ '"' :: rest) := by
      simp [quote_some]
    rw [hquote, readToken_quotation, readPieces_flatMap]
    simp only [Option.map_some, List.reverse_nil, List.nil_append, textOf_pieceOf]

/-- Nothing follows that a number could go on with. -/
def Ends (s : List Char) : Prop := ∀ c ∈ s.head?, c.isDigit = false ∧ c ∉ ['.', 'e', 'E']

theorem readDigits_append {digits rest : List Char} (hne : digits ≠ [])
    (hdigits : ∀ c ∈ digits, c.isDigit) (hrest : ∀ c ∈ rest.head?, c.isDigit = false) :
    readDigits (digits ++ rest) = some (digits, rest) := by
  have hsplit : rest.takeWhile Char.isDigit = [] ∧ rest.dropWhile Char.isDigit = rest := by
    cases rest with
    | nil => exact ⟨rfl, rfl⟩
    | cons c rest =>
      have hc : ¬c.isDigit := by simp [hrest c rfl]
      exact ⟨List.takeWhile_cons_of_neg hc, List.dropWhile_cons_of_neg hc⟩
  rw [readDigits, List.takeWhile_append_of_pos hdigits, List.dropWhile_append_of_pos hdigits,
    hsplit.1, hsplit.2, List.append_nil, if_neg hne]

theorem isDigit_of_mem_toDigits {n : Nat} {c : Char} (h : c ∈ Nat.toDigits 10 n) : c.isDigit :=
  Nat.isDigit_of_mem_toDigits (by decide) (by decide) h

theorem head?_toDigits_of_lt : ∀ n < 10, 0 < n → (Nat.toDigits 10 n).head? ≠ some '0' := by decide

theorem head?_toDigits {n : Nat} (hpos : 0 < n) : (Nat.toDigits 10 n).head? ≠ some '0' := by
  induction n using Nat.strongRecOn with
  | _ n ih =>
    rcases Nat.lt_or_ge n 10 with hlt | hge
    · exact head?_toDigits_of_lt n hlt hpos
    · rw [Nat.toDigits_of_base_le (by decide) hge,
        List.head?_append, List.head?_eq_some_head Nat.toDigits_ne_nil, Option.some_or,
        ← List.head?_eq_some_head]
      exact ih (n / 10) (by omega) (by omega)

theorem toDigits_leading (n : Nat) :
    Nat.toDigits 10 n = ['0'] ∨ (Nat.toDigits 10 n).head? ≠ some '0' := by
  rcases Nat.eq_zero_or_pos n with rfl | hpos
  · exact .inl rfl
  · exact .inr (head?_toDigits hpos)

theorem readFraction_append {fraction rest : List Char} (hdigits : ∀ c ∈ fraction, c.isDigit)
    (hrest : ∀ c ∈ rest.head?, c.isDigit = false ∧ c ≠ '.') :
    readFraction ((if fraction = [] then [] else '.' :: fraction) ++ rest) =
      some (fraction, rest) := by
  split
  · next hnil =>
    subst hnil
    rw [List.nil_append, readFraction.eq_def]
    split
    · next c rest => exact absurd rfl (hrest '.' rfl).2
    · rfl
  · next hne => exact readDigits_append hne hdigits fun c hc => (hrest c hc).1

def exponentChars : Option Int → List Char
  | none => []
  | some e => 'e' :: (if e < 0 then '-' else '+') :: Nat.toDigits 10 e.natAbs

theorem readExponent_minus (s : List Char) :
    readExponent ('e' :: '-' :: s) =
      (readDigits s).map fun p => (some (-(Nat.ofDigitChars 10 p.1 0 : Int)), p.2) :=
  rfl

theorem readExponent_plus (s : List Char) :
    readExponent ('e' :: '+' :: s) =
      (readDigits s).map fun p => (some (Nat.ofDigitChars 10 p.1 0 : Int), p.2) :=
  rfl

theorem readExponent_append (e : Option Int) {rest : List Char} (hrest : Ends rest) :
    readExponent (exponentChars e ++ rest) = some (e, rest) := by
  cases e with
  | none =>
    cases rest with
    | nil => rfl
    | cons c rest =>
      have hc : ¬(c = 'e' ∨ c = 'E') := by
        rintro (rfl | rfl) <;> exact absurd (hrest _ rfl).2 (by decide)
      exact if_neg hc
  | some e =>
    have hread : readDigits (Nat.toDigits 10 e.natAbs ++ rest) =
        some (Nat.toDigits 10 e.natAbs, rest) :=
      readDigits_append Nat.toDigits_ne_nil (fun c => isDigit_of_mem_toDigits)
        fun c hc => (hrest c hc).1
    rw [exponentChars]
    split
    · next hneg =>
      rw [List.cons_append, List.cons_append, readExponent_minus, hread, Option.map_some,
        Nat.ofDigitChars_ten_toDigits]
      have habs : -(e.natAbs : Int) = e := by omega
      rw [habs]
    · next hpos =>
      rw [List.cons_append, List.cons_append, readExponent_plus, hread, Option.map_some,
        Nat.ofDigitChars_ten_toDigits]
      have habs : (e.natAbs : Int) = e := by omega
      rw [habs]

def unsignedChars (n : Numeral) : List Char :=
  Nat.toDigits 10 n.whole ++
    ((if n.fraction = [] then [] else '.' :: n.fraction) ++ exponentChars n.exponent)

theorem chars_number (n : Numeral) :
    n.chars = (if n.negative then ['-'] else []) ++ unsignedChars n := by
  obtain ⟨negative, whole, fraction, exponent⟩ := n
  cases exponent <;> simp [Numeral.chars, unsignedChars, exponentChars]

theorem exponentChars_head {e : Option Int} {rest : List Char} (hrest : Ends rest) :
    ∀ c ∈ (exponentChars e ++ rest).head?, c.isDigit = false ∧ c ≠ '.' := by
  -- what follows the digits in front starts with the point, the letter, or what ends the number
  intro c hc
  cases e with
  | none =>
    have h := hrest c hc
    exact ⟨h.1, fun hpoint => h.2 (by simp [hpoint])⟩
  | some e =>
    obtain rfl : c = 'e' := by simpa [exponentChars, eq_comm] using hc
    decide

theorem readUnsigned_append (n : Numeral) (hdigits : ∀ c ∈ n.fraction, c.isDigit)
    {rest : List Char} (hrest : Ends rest) :
    readUnsigned n.negative (unsignedChars n ++ rest) = some (n, rest) := by
  have hafter := exponentChars_head (e := n.exponent) hrest
  have hfraction := readFraction_append hdigits hafter
  have hwhole : readDigits (unsignedChars n ++ rest) =
      some (Nat.toDigits 10 n.whole, (if n.fraction = [] then [] else '.' :: n.fraction) ++
        (exponentChars n.exponent ++ rest)) := by
    rw [unsignedChars, List.append_assoc, List.append_assoc]
    refine readDigits_append Nat.toDigits_ne_nil (fun c => isDigit_of_mem_toDigits) ?_
    split
    · exact fun c hc => (hafter c hc).1
    · rintro c hc
      obtain rfl : c = '.' := by simpa [eq_comm] using hc
      rfl
  rw [readUnsigned, hwhole]
  simp only [Option.bind_eq_bind, Option.bind_some, if_pos (toDigits_leading n.whole), hfraction,
    readExponent_append n.exponent hrest, Nat.ofDigitChars_ten_toDigits, Option.pure_def]

theorem unsignedChars_cons (n : Numeral) :
    ∃ c s, unsignedChars n = c :: s ∧ c.isDigit := by
  obtain ⟨c, s, hcs⟩ := List.exists_cons_of_ne_nil (Nat.toDigits_ne_nil (n := n.whole) (b := 10))
  refine ⟨c, _, by rw [unsignedChars, hcs, List.cons_append], ?_⟩
  exact isDigit_of_mem_toDigits (n := n.whole) (by simp [hcs])

theorem readNumeral_chars (n : Numeral) (hdigits : ∀ c ∈ n.fraction, c.isDigit)
    {rest : List Char} (hrest : Ends rest) :
    readNumeral (n.chars ++ rest) = some (n, rest) := by
  have hread := readUnsigned_append n hdigits hrest
  rw [chars_number]
  cases hneg : n.negative with
  | true =>
    rw [hneg] at hread
    exact hread
  | false =>
    rw [hneg] at hread
    obtain ⟨c, s, hcs, hc⟩ := unsignedChars_cons n
    rw [if_neg Bool.false_ne_true, List.nil_append, readNumeral.eq_def]
    split
    · next heq =>
      rw [hcs, List.cons_append] at heq
      obtain ⟨rfl, -⟩ := List.cons.inj heq
      exact absurd hc (by decide)
    · exact hread

theorem readToken_number {c : Char} (hc : c = '-' ∨ c.isDigit) (s : List Char) :
    readToken (c :: s) = (readNumeral (c :: s)).map fun (n, rest) => (.number n, rest) := by
  rw [readToken.eq_def]
  split
  case h_11 => rfl
  all_goals
    next heq =>
      obtain ⟨rfl, -⟩ := List.cons.inj heq
      exact absurd hc (by decide)

theorem readToken_numeral (n : Numeral) (hdigits : ∀ c ∈ n.fraction, c.isDigit)
    {rest : List Char} (hrest : Ends rest) :
    readToken (n.chars ++ rest) = some (.number n, rest) := by
  have hread := readNumeral_chars n hdigits hrest
  have hhead : ∃ c s, n.chars = c :: s ∧ (c = '-' ∨ c.isDigit) := by
    obtain ⟨c, s, hcs, hc⟩ := unsignedChars_cons n
    rw [chars_number, hcs]
    cases n.negative with
    | true => exact ⟨'-', c :: s, rfl, .inl rfl⟩
    | false => exact ⟨c, s, rfl, .inr hc⟩
  obtain ⟨c, s, hcs, hc⟩ := hhead
  rw [hcs, List.cons_append] at hread ⊢
  rw [readToken_number hc, hread, Option.map_some]

end FieldShow.Json
