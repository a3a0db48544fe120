import FieldShow.Json.Numeral

/-!
The tokens of JSON text. Blanks are the space, the tab and the two line ends; every other
character must belong to a token.
-/

namespace FieldShow.Json

inductive Token where
  | leftBracket | rightBracket | leftBrace | rightBrace | comma | colon
  | null
  | bool (b : Bool)
  | number (n : Numeral)
  | string (t : Text)
deriving DecidableEq, Repr

def blank (c : Char) : Bool := c = ' ' || c = '\t' || c = '\n' || c = '\r'

/-! ## Strings -/

/-- One character of a string as written: itself, or sixteen bits given by their number. -/
inductive Piece where
  | char (c : Char)
  | unit (n : Nat)
deriving DecidableEq, Repr

def hexDigit? (c : Char) : Option Nat :=
  if c.isDigit then some (c.toNat - '0'.toNat)
  else if 'a' ≤ c ∧ c ≤ 'f' then some (c.toNat - 'a'.toNat + 10)
  else if 'A' ≤ c ∧ c ≤ 'F' then some (c.toNat - 'A'.toNat + 10)
  else none

def hex? (cs : List Char) : Option Nat :=
  cs.foldlM (fun n c => (16 * n + ·) <$> hexDigit? c) 0

def escaped? : Char → Option Char
  | '"' => some '"'
  | '\\' => some '\\'
  | '/' => some '/'
  | 'b' => some '\x08'
  | 'f' => some '\x0c'
  | 'n' => some '\n'
  | 'r' => some '\r'
  | 't' => some '\t'
  | _ => none

def readPieces : List Char → List Piece → Option (List Piece × List Char)
  | [], _ => none
  | '"' :: rest, done => some (done.reverse, rest)
  | '\\' :: 'u' :: a :: b :: c :: d :: rest, done =>
    match hex? [a, b, c, d] with
    | some n => readPieces rest (.unit n :: done)
    | none => none
  | '\\' :: e :: rest, done =>
    match escaped? e with
    | some c => readPieces rest (.char c :: done)
    | none => none
  | c :: rest, done =>
    if c < ' ' ∨ c = '\\' then none else readPieces rest (.char c :: done)

def isHigh (n : Nat) : Bool := 0xD800 ≤ n && n < 0xDC00

def isLow (n : Nat) : Bool := 0xDC00 ≤ n && n < 0xE000

/-- The characters of a string. A high and a low surrogate make one; a lone one spoils it. -/
def join? : List Piece → List Char → Option (List Char)
  | [], done => some done.reverse
  | .char c :: rest, done => join? rest (c :: done)
  | .unit n :: .unit m :: rest, done =>
    if isHigh n then
      if isLow m then join? rest (.ofNat (0x10000 + (n - 0xD800) * 0x400 + (m - 0xDC00)) :: done)
      else none
    else if isLow n then none
    else join? (.unit m :: rest) (.ofNat n :: done)
  | .unit n :: rest, done =>
    if isHigh n || isLow n then none else join? rest (.ofNat n :: done)

def textOf (pieces : List Piece) : Text := (join? pieces []).map String.ofList

/-! ## Numbers -/

def readDigits (s : List Char) : Option (List Char × List Char) :=
  if s.takeWhile Char.isDigit = [] then none
  else some (s.takeWhile Char.isDigit, s.dropWhile Char.isDigit)

def readFraction : List Char → Option (List Char × List Char)
  | '.' :: rest => readDigits rest
  | s => some ([], s)

def readExponent : List Char → Option (Option Int × List Char)
  | c :: rest =>
    if c = 'e' ∨ c = 'E' then
      let (negative, rest) : Bool × List Char := match rest with
        | '-' :: rest => (true, rest)
        | '+' :: rest => (false, rest)
        | rest => (false, rest)
      (readDigits rest).map fun (digits, rest) =>
        let n : Int := Nat.ofDigitChars 10 digits 0
        (some (if negative then -n else n), rest)
    else some (none, c :: rest)
  | [] => some (none, [])

def readUnsigned (negative : Bool) (s : List Char) : Option (Numeral × List Char) := do
  let (whole, rest) ← readDigits s
  if whole = ['0'] ∨ whole.head? ≠ some '0' then
    let (fraction, rest) ← readFraction rest
    let (exponent, rest) ← readExponent rest
    return (⟨negative, Nat.ofDigitChars 10 whole 0, fraction, exponent⟩, rest)
  else none

def readNumeral : List Char → Option (Numeral × List Char)
  | '-' :: rest => readUnsigned true rest
  | s => readUnsigned false s

/-! ## All tokens -/

def readToken : List Char → Option (Token × List Char)
  | '[' :: rest => some (.leftBracket, rest)
  | ']' :: rest => some (.rightBracket, rest)
  | '{' :: rest => some (.leftBrace, rest)
  | '}' :: rest => some (.rightBrace, rest)
  | ',' :: rest => some (.comma, rest)
  | ':' :: rest => some (.colon, rest)
  | '"' :: rest => (readPieces rest []).map fun (pieces, rest) => (.string (textOf pieces), rest)
  | 'n' :: 'u' :: 'l' :: 'l' :: rest => some (.null, rest)
  | 't' :: 'r' :: 'u' :: 'e' :: rest => some (.bool true, rest)
  | 'f' :: 'a' :: 'l' :: 's' :: 'e' :: rest => some (.bool false, rest)
  | s => (readNumeral s).map fun (n, rest) => (.number n, rest)

theorem length_readPieces {s rest : List Char} {done pieces : List Piece}
    (h : readPieces s done = some (pieces, rest)) : rest.length < s.length := by
  fun_induction readPieces s done with
  | case1 => simp at h
  | case2 rest' done =>
    obtain ⟨-, rfl⟩ := by simpa using h
    simp
  | case3 a b c d rest' done n hn ih =>
    have := ih h
    simp only [List.length_cons]
    omega
  | case4 => simp at h
  | case5 e rest' done hu c hc ih =>
    have := ih h
    simp only [List.length_cons]
    omega
  | case6 => simp at h
  | case7 => simp at h
  | case8 c rest' done hq hu hb hc ih =>
    have := ih h
    simp only [List.length_cons]
    omega

theorem length_readDigits {s digits rest : List Char} (h : readDigits s = some (digits, rest)) :
    rest.length < s.length := by
  unfold readDigits at h
  split at h
  · simp at h
  · next hne =>
    obtain ⟨rfl, rfl⟩ := by simpa using h
    have hlen := congrArg List.length (List.takeWhile_append_dropWhile (p := Char.isDigit) (l := s))
    have := List.length_pos_iff.2 hne
    rw [List.length_append] at hlen
    omega

theorem length_readFraction {s digits rest : List Char}
    (h : readFraction s = some (digits, rest)) : rest.length ≤ s.length := by
  unfold readFraction at h
  split at h
  · have := length_readDigits h
    simp
    omega
  · simp_all

theorem length_readExponent {s rest : List Char} {e : Option Int}
    (h : readExponent s = some (e, rest)) : rest.length ≤ s.length := by
  unfold readExponent at h
  split at h
  · split at h
    · obtain ⟨⟨digits, r⟩, hr, heq⟩ := Option.map_eq_some_iff.1 h
      have hlen := length_readDigits hr
      obtain ⟨-, rfl⟩ := by simpa using heq
      split at hlen <;> simp_all <;> omega
    · simp_all
  · simp_all

theorem length_readNumeral {s rest : List Char} {n : Numeral}
    (h : readNumeral s = some (n, rest)) : rest.length < s.length := by
  have unsigned {negative : Bool} {s rest : List Char} {n : Numeral}
      (h : readUnsigned negative s = some (n, rest)) : rest.length < s.length := by
    simp only [readUnsigned, Option.bind_eq_bind, Option.bind_eq_some_iff, Prod.exists] at h
    obtain ⟨_, _, h1, h⟩ := h
    split at h
    case isFalse => cases h
    simp only [Option.bind_eq_some_iff, Prod.exists] at h
    obtain ⟨_, _, h2, _, _, h3, h4⟩ := h
    have := length_readDigits h1
    have := length_readFraction h2
    have := length_readExponent h3
    simp only [Option.pure_def, Option.some.injEq, Prod.mk.injEq] at h4
    obtain ⟨-, rfl⟩ := h4
    omega
  unfold readNumeral at h
  split at h
  · have := unsigned h
    simp
    omega
  · exact unsigned h

theorem length_readToken {s rest : List Char} {t : Token} (h : readToken s = some (t, rest)) :
    rest.length < s.length := by
  unfold readToken at h
  split at h
  case h_7 =>
    obtain ⟨⟨_, _⟩, hr, heq⟩ := Option.map_eq_some_iff.1 h
    have := length_readPieces hr
    simp_all
    omega
  case h_11 =>
    obtain ⟨⟨_, _⟩, hr, heq⟩ := Option.map_eq_some_iff.1 h
    have := length_readNumeral hr
    simp_all
  all_goals
    simp at h
    simp [← h]
    try omega

def tokensFrom (done : List Token) (s : List Char) : Option (List Token) :=
  match s with
  | [] => some done.reverse
  | c :: rest =>
    if blank c then tokensFrom done rest
    else
      match _h : readToken (c :: rest) with
      | some (t, rest) => tokensFrom (t :: done) rest
      | none => none
termination_by s.length
decreasing_by
  · exact Nat.lt_succ_self _
  · exact length_readToken _h

def tokens? (s : List Char) : Option (List Token) := tokensFrom [] s

end FieldShow.Json
