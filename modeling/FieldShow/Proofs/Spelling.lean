import FieldShow.Continuity.Text
import FieldShow.Proofs.Decimals
import FieldShow.Proofs.Lexing
import FieldShow.Proofs.Scripts

/-!
The written form of an expression, read back. Its first character tells a number, a negation and a
calculation apart from everything else, which begins with a word. A negated number and a number
below zero are written alike, and only they.
-/

namespace FieldShow

namespace Expr

def negated : Expr → Expr
  | number x => number (-x)
  | a => neg a

/-- An expression in which numbers bear their own signs. -/
def folded : Expr → Expr
  | neg a => a.folded.negated
  | add a b => add a.folded b.folded
  | sub a b => sub a.folded b.folded
  | mul a b => mul a.folded b.folded
  | div a b => div a.folded b.folded
  | nearer a b p => nearer a.folded b.folded p
  | opposite a => opposite a.folded
  | stepDrill a b p => stepDrill a.folded b.folded p
  | a => a

end Expr

namespace Spelling

open Numeric

/-! ## Readers -/

abbrev Reader := StateT (List Char) Option

def sign (c : Char) : Reader Unit
  | d :: s => if d = c then some ((), s) else none
  | [] => none

def word : Reader String := fun s =>
  some (.ofList (s.takeWhile Char.isAlphanum), s.dropWhile Char.isAlphanum)

section Combinators

variable {α : Type}

def next (r : Reader α) : Reader α := do
  sign ' '
  r

def bracketed (r : Reader α) : Reader α := do
  sign '('
  let a ← r
  sign ')'
  return a

def headed (table : List (String × Reader α)) : Reader α := do
  let w ← word
  let r ← table.lookup w
  r

end Combinators

def target? : List Char → Option Target
  | ['P'] => some .here
  | ['S', 'P'] => some .start
  | ['N', 'P'] => some .next
  | 'R' :: digits => some (.ref (.ofNat (Nat.ofDigitChars 10 digits 0)))
  | _ => none

def place : Reader Target := do
  target? (← word).toList

def number : Reader Expr := fun s => do
  let (n, s) ← Json.readUnsigned false s
  return (.number n.toFloat, s)

def operator : Reader (Expr → Expr → Expr)
  | ' ' :: '+' :: ' ' :: s => some (.add, s)
  | ' ' :: '-' :: ' ' :: s => some (.sub, s)
  | ' ' :: '*' :: ' ' :: s => some (.mul, s)
  | ' ' :: '/' :: ' ' :: s => some (.div, s)
  | _ => none

def binary (value : Reader Expr) : Reader Expr := do
  let a ← value
  let combine ← operator
  combine a <$> value

def phrases (value : Reader Expr) : List (String × Reader Expr) :=
  [("REM", pure .remaining),
    ("DIR", bracketed (.direction <$> place)),
    ("DIRFROM", bracketed (.directionBetween <$> place <*> next place)),
    ("DIST", bracketed (.distance <$> place)),
    ("DISTFROM", bracketed (.distanceBetween <$> place <*> next place)),
    ("EITHER", bracketed (.nearer <$> value <*> next value <*> next place)),
    ("OPP", bracketed (.opposite <$> value)),
    ("STEP", bracketed (.stepDrill <$> value <*> next value <*> next place))] ++
  Constant.all.map (fun c => (c.keyword, pure (.constant c))) ++
  Slot.all.map (fun s => (s.keyword, pure (.slot s)))

/-- An expression of a text shorter than the given length. -/
def expr : Nat → Reader Expr
  | 0 => failure
  | n + 1 => fun
    | '-' :: s => (Expr.negated <$> expr n) s
    | '(' :: s => bracketed (binary (expr n)) ('(' :: s)
    | s => (number <|> headed (phrases (expr n))) s

/-- From the front of the first text the reader takes `a`, and the second text is left. -/
def Reads {α : Type} (r : Reader α) (s : List Char) (a : α) (rest : List Char) : Prop :=
  r s = some (a, rest)

section Laws

variable {α β : Type} {r q : Reader α} {f : α → Reader β} {g : Reader (α → β)} {k : α → β}
  {a : α} {b : β} {s t u : List Char}

theorem Reads.bind (h : Reads r s a t) (h' : Reads (f a) t b u) : Reads (r >>= f) s b u := by
  unfold Reads at *
  change (r s).bind (fun p => f p.1 p.2) = _
  rw [h]
  exact h'

theorem reads_pure (a : α) (s : List Char) : Reads (pure a) s a s := rfl

theorem Reads.map (h : Reads r s a t) : Reads (k <$> r) s (k a) t := by
  unfold Reads at *
  change (r s).bind (fun p => some (k p.1, p.2)) = _
  rw [h]
  rfl

theorem Reads.seq (hg : Reads g s k t) (h : Reads r t a u) : Reads (g <*> r) s (k a) u := by
  unfold Reads at *
  change (g s).bind (fun p => (r p.2).bind fun q => some (p.1 q.1, q.2)) = _
  rw [hg, Option.bind_some, h]
  rfl

theorem Reads.orElse_left (h : Reads r s a t) : Reads (r <|> q) s a t := by
  unfold Reads at *
  change (r s <|> q s) = _
  rw [h]
  rfl

theorem Reads.orElse_right (hr : r s = none) (h : Reads q s a t) : Reads (r <|> q) s a t := by
  unfold Reads at *
  change (r s <|> q s) = _
  rw [hr, h]
  rfl

theorem orElse_eq_none (hr : r s = none) (hq : q s = none) : (r <|> q) s = none := by
  change (r s <|> q s) = _
  rw [hr, hq]
  rfl

theorem reads_sign (c : Char) (s : List Char) : Reads (sign c) (c :: s) () s := if_pos rfl

theorem Reads.next (h : Reads r s a t) : Reads (next r) (' ' :: s) a t :=
  (reads_sign ' ' s).bind h

theorem Reads.bracketed (h : Reads r s a (')' :: t)) : Reads (bracketed r) ('(' :: s) a t :=
  (reads_sign '(' s).bind (h.bind ((reads_sign ')' t).bind (reads_pure a t)))

end Laws

/-! ## Words -/

/-- Neither a word nor a number goes on here. -/
def Stops (s : List Char) : Prop := ∀ c ∈ s.head?, c ∈ [' ', '(', ')']

theorem stops_nil : Stops [] := nofun

theorem stops_cons {c : Char} (hc : c ∈ [' ', '(', ')']) (s : List Char) : Stops (c :: s) := by
  rintro _ ⟨⟩
  exact hc

theorem Stops.ends {s : List Char} (h : Stops s) : Json.Ends s := by
  have hall : ∀ c ∈ [' ', '(', ')'], c.isDigit = false ∧ c ∉ ['.', 'e', 'E'] := by simp
  exact fun c hc => hall c (h c hc)

theorem reads_word {w : String} (hw : ∀ c ∈ w.toList, c.isAlphanum) {s : List Char}
    (hs : Stops s) : Reads word (w.toList ++ s) w s := by
  have hsplit : s.takeWhile Char.isAlphanum = [] ∧ s.dropWhile Char.isAlphanum = s := by
    cases s with
    | nil => exact ⟨rfl, rfl⟩
    | cons c s =>
      have hall : ∀ c ∈ [' ', '(', ')'], ¬c.isAlphanum := by simp
      have hc : ¬c.isAlphanum := hall c (hs c rfl)
      exact ⟨List.takeWhile_cons_of_neg hc, List.dropWhile_cons_of_neg hc⟩
  unfold Reads word
  rw [List.takeWhile_append_of_pos hw, List.dropWhile_append_of_pos hw, hsplit.1, hsplit.2,
    List.append_nil, String.ofList_toList]

theorem reads_headed {α : Type} {table : List (String × Reader α)} {w : String} {r : Reader α}
    {s t : List Char} {a : α} (hw : ∀ c ∈ w.toList, c.isAlphanum) (hr : table.lookup w = some r)
    (hs : Stops s) (h : Reads r s a t) : Reads (headed table) (w.toList ++ s) a t := by
  refine (reads_word hw hs).bind ?_
  rw [hr]
  exact h

theorem headed_eq_none {α : Type} {table : List (String × Reader α)} {w : String} {s : List Char}
    (hw : ∀ c ∈ w.toList, c.isAlphanum) (hr : table.lookup w = none) (hs : Stops s) :
    headed table (w.toList ++ s) = none := by
  have hword : word (w.toList ++ s) = some (w, s) := reads_word hw hs
  change ((word (w.toList ++ s)).bind fun p =>
    ((table.lookup p.1).bind fun r => some (r, p.2)).bind fun p => p.1 p.2) = none
  rw [hword, Option.bind_some, hr]
  rfl

theorem mem_of_lookup {α : Type} {table : List (String × α)} {w : String} {a : α}
    (h : table.lookup w = some a) : (w, a) ∈ table := by
  obtain ⟨before, after, rfl, -⟩ := List.lookup_eq_some_iff.1 h
  exact List.mem_append_right before (.head after)

theorem toList_text_ref (n : UInt8) :
    (Target.ref n).text.toList = 'R' :: Nat.toDigits 10 n.toNat := by
  simp [Target.text]

theorem target?_text (p : Target) : target? p.text.toList = some p := by
  cases p with
  | ref n =>
    rw [toList_text_ref, target?, Nat.ofDigitChars_ten_toDigits, UInt8.ofNat_toNat]
  | _ => rfl

theorem isAlphanum_of_mem_text (p : Target) : ∀ c ∈ p.text.toList, c.isAlphanum := by
  cases p with
  | ref n =>
    rw [toList_text_ref, List.forall_mem_cons]
    refine ⟨by decide, fun c hc => ?_⟩
    rw [Char.isAlphanum, Json.isDigit_of_mem_toDigits hc, Bool.or_true]
  | _ => simp [Target.text]

theorem reads_place (p : Target) {s : List Char} (hs : Stops s) :
    Reads place (p.text.toList ++ s) p s := by
  refine (reads_word (isAlphanum_of_mem_text p) hs).bind ?_
  rw [target?_text]
  rfl

def plain (x : Float) : Numeral :=
  ⟨false, (Decimal.shortest x).places.1, (Decimal.shortest x).places.2, none⟩

theorem exponent_le_of_isFinite {d : Decimal} (h : d.toFloat.isFinite) :
    d.digits = 0 ∨ d.exponent ≤ 400 := by
  by_contra hlarge
  rw [not_or] at hlarge
  have hread : ¬(d.digits = 0 ∨ d.exponent < -400 - d.digits.log2) := by omega
  have habove : 400 < d.exponent := by omega
  rw [Decimal.toFloat, if_neg hread, if_pos habove] at h
  exact absurd h (by decide +kernel)

theorem toFloat_plain {x : Float} (h : x.isFinite) : (plain x).toFloat = x.abs := by
  have hread := toFloat_shortest h
  have hfinite := isFinite_abs h
  have hmagnitude : (plain x).magnitude.toFloat = x.abs := by
    rw [plain]
    rcases Int.lt_or_le (Decimal.shortest x).exponent 0 with hneg | hpos
    · rw [Numeral.magnitude_positional false hneg, hread]
    · have hplaces : (Decimal.shortest x).places =
        ((Decimal.shortest x).digits * 10 ^ (Decimal.shortest x).exponent.toNat, []) := if_pos hpos
      have hsmall := exponent_le_of_isFinite (hread ▸ hfinite)
      rw [hplaces, ← hread]
      exact Numeral.toFloat_magnitude_zeros false hpos hsmall (k := 0) (by decide)
  rw [Numeral.toFloat, hmagnitude]
  rfl

theorem toList_plainText {x : Float} (h : x.isFinite) :
    (plainText x).toList = (if signed x then ['-'] else []) ++ Json.unsignedChars (plain x) := by
  have hself : x.toModel.unpack.isFinite = true := h
  have hnan : x.isNaN = false := by
    show x.toModel.unpack.isNaN = false
    cases hu : x.toModel.unpack <;> rw [hu] at hself <;> first | rfl | cases hself
  have hinf : x.isInf = false := by
    show x.toModel.unpack.isInf = false
    cases hu : x.toModel.unpack <;> rw [hu] at hself <;> first | rfl | cases hself
  rw [plainText, hnan, hinf, plain, Json.unsignedChars, Json.exponentChars]
  by_cases hsigned : signed x <;> by_cases hfraction : (Decimal.shortest x).places.2 = [] <;>
    simp [hsigned, hfraction]

/-! ## Expressions -/

theorem reads_number {x : Float} (h : x.isFinite) {s : List Char} (hs : Stops s) :
    Reads number (Json.unsignedChars (plain x) ++ s) (.number x.abs) s := by
  have hread := Json.readUnsigned_append (plain x) (Decimal.isDigit_of_mem_places _) hs.ends
  unfold Reads number
  change ((Json.readUnsigned (plain x).negative _).bind fun p =>
    some (Expr.number p.1.toFloat, p.2)) = _
  rw [hread, Option.bind_some, toFloat_plain h]

theorem number_eq_none {c : Char} (hc : c.isDigit = false) (s : List Char) :
    number (c :: s) = none := by
  have hnone : (c :: s).takeWhile Char.isDigit = [] := List.takeWhile_cons_of_neg (by simp [hc])
  have hread : Json.readUnsigned false (c :: s) = none := by
    simp [Json.readUnsigned, Json.readDigits, hnone]
  unfold number
  rw [hread]
  rfl

theorem expr_of_isAlphanum {c : Char} (hc : c.isAlphanum) (n : ℕ) (s : List Char) :
    expr (n + 1) (c :: s) = (number <|> headed (phrases (expr n))) (c :: s) := by
  rw [expr]
  dsimp only
  split
  · next heq =>
    obtain ⟨rfl, -⟩ := List.cons.inj heq
    cases hc
  · next heq =>
    obtain ⟨rfl, -⟩ := List.cons.inj heq
    cases hc
  · rfl

theorem not_isDigit_of_isUpper {c : Char} (h : c.isUpper) : c.isDigit = false := by
  rw [Char.isUpper, decide_eq_true_iff] at h
  rw [Char.isDigit, Bool.and_eq_false_iff]
  refine .inr (decide_eq_false fun hle => ?_)
  exact absurd (UInt32.le_trans h.1 hle) (by decide)

theorem isUpper_of_mem_phrases {value : Reader Expr} :
    ∀ p ∈ phrases value, p.1.toList ≠ [] ∧ ∀ c ∈ p.1.toList, c.isUpper := by
  simp [phrases, Constant.all, Constant.keyword, Slot.all, Slot.keyword]

section Forms

variable {n : ℕ} {w : String} {r : Reader Expr} {s t u v : List Char} {e a b : Expr}
  {p q : Target}

theorem reads_phrase (hr : (phrases (expr n)).lookup w = some r) (hs : Stops s)
    (h : Reads r s e t) : Reads (expr (n + 1)) (w.toList ++ s) e t := by
  obtain ⟨hne, hw⟩ := isUpper_of_mem_phrases _ (mem_of_lookup hr)
  have halphanum (c : Char) (hc : c ∈ w.toList) : c.isAlphanum := by
    simp [Char.isAlphanum, Char.isAlpha, hw c hc]
  have hhead := reads_headed halphanum hr hs h
  obtain ⟨c, cs, hcs⟩ := List.exists_cons_of_ne_nil hne
  have hc : c ∈ w.toList := by simp [hcs]
  rw [hcs, List.cons_append] at hhead ⊢
  unfold Reads at hhead ⊢
  rw [expr_of_isAlphanum (halphanum c hc)]
  exact Reads.orElse_right (number_eq_none (not_isDigit_of_isUpper (hw c hc)) _) hhead

theorem reads_call (hr : (phrases (expr n)).lookup w = some (bracketed r))
    (h : Reads r s e (')' :: t)) : Reads (expr (n + 1)) (w.toList ++ '(' :: s) e t :=
  reads_phrase hr (stops_cons (by simp) s) h.bracketed

theorem reads_negated (h : Reads (expr n) s e t) : Reads (expr (n + 1)) ('-' :: s) e.negated t :=
  h.map

theorem reads_binary {f : Expr → Expr → Expr} (ha : Reads (expr n) s a t)
    (hf : Reads operator t f u) (hb : Reads (expr n) u b (')' :: v)) :
    Reads (expr (n + 1)) ('(' :: s) (f a b) v :=
  Reads.bracketed (ha.bind (hf.bind hb.map))

theorem reads_places {f : Target → Target → Expr} (hp : Reads place s p (' ' :: t))
    (hq : Reads place t q u) : Reads (f <$> place <*> next place) s (f p q) u :=
  hp.map.seq hq.next

theorem reads_mixed {f : Expr → Expr → Target → Expr} (ha : Reads (expr n) s a (' ' :: t))
    (hb : Reads (expr n) t b (' ' :: u)) (hp : Reads place u p v) :
    Reads (f <$> expr n <*> next (expr n) <*> next place) s (f a b p) v :=
  (ha.map.seq hb.next).seq hp.next

theorem reads_unsigned {x : Float} (h : x.isFinite) (hs : Stops s) :
    Reads (expr (n + 1)) (Json.unsignedChars (plain x) ++ s) (.number x.abs) s := by
  obtain ⟨c, cs, hcs, hc⟩ := Json.unsignedChars_cons (plain x)
  have hnumber := reads_number h hs
  rw [hcs, List.cons_append] at hnumber ⊢
  unfold Reads at hnumber ⊢
  rw [expr_of_isAlphanum (by simp [Char.isAlphanum, hc])]
  exact Reads.orElse_left hnumber

end Forms

theorem reads_expr {e : Expr} (hfinite : ∀ x ∈ e.literals, x.isFinite) {n : ℕ}
    (hn : e.text.toList.length < n) {s : List Char} (hs : Stops s) :
    Reads (expr n) (e.text.toList ++ s) e.folded s := by
  -- by induction on the expression; its text is longer than those of its parts
  have hblank (s : List Char) : Stops (' ' :: s) := stops_cons (by simp) s
  have hclose (s : List Char) : Stops (')' :: s) := stops_cons (by simp) s
  induction e generalizing n s <;>
    obtain ⟨n, rfl⟩ := Nat.exists_eq_add_one_of_ne_zero (Nat.ne_zero_of_lt hn) <;>
    simp [Expr.text] at hn <;>
    simp only [Expr.text, Expr.folded, String.toList_append, List.append_assoc]
  case number x =>
    have hx := hfinite x (List.mem_singleton_self x)
    have hself := signed_abs hx
    rw [toList_plainText hx] at hn ⊢
    -- What is read after the sign is the absolute value, and it is negated at once.
    split
    · next hsigned =>
      rw [if_pos hsigned] at hself hn
      obtain ⟨n, rfl⟩ := Nat.exists_eq_add_one_of_ne_zero (Nat.ne_zero_of_lt hn)
      have hread := reads_negated (reads_unsigned (n := n) hx hs)
      rwa [Expr.negated, hself] at hread
    · next hplain =>
      rw [if_neg hplain] at hself
      have hread := reads_unsigned (n := n) hx hs
      rwa [hself] at hread
  case constant c => exact reads_phrase (by cases c <;> rfl) hs (reads_pure _ _)
  case slot v => exact reads_phrase (by cases v <;> rfl) hs (reads_pure _ _)
  case remaining => exact reads_phrase rfl hs (reads_pure _ _)
  case neg a ih => exact reads_negated (ih hfinite (by omega) hs)
  case add a b iha ihb | sub a b iha ihb | mul a b iha ihb | div a b iha ihb =>
    obtain ⟨ha, hb⟩ := List.forall_mem_append.1 hfinite
    exact reads_binary (iha ha (by omega) (hblank _)) rfl (ihb hb (by omega) (hclose _))
  case direction p => exact reads_call (w := "DIR") rfl (reads_place p (hclose _)).map
  case distance p => exact reads_call (w := "DIST") rfl (reads_place p (hclose _)).map
  case directionBetween p q =>
    exact reads_call (w := "DIRFROM") rfl
      (reads_places (reads_place p (hblank _)) (reads_place q (hclose _)))
  case distanceBetween p q =>
    exact reads_call (w := "DISTFROM") rfl
      (reads_places (reads_place p (hblank _)) (reads_place q (hclose _)))
  case opposite a ih =>
    exact reads_call (w := "OPP") rfl (ih hfinite (by omega) (hclose _)).map
  case nearer a b p iha ihb =>
    obtain ⟨ha, hb⟩ := List.forall_mem_append.1 hfinite
    exact reads_call (w := "EITHER") rfl (reads_mixed (iha ha (by omega) (hblank _))
      (ihb hb (by omega) (hblank _)) (reads_place p (hclose _)))
  case stepDrill a b p iha ihb =>
    obtain ⟨ha, hb⟩ := List.forall_mem_append.1 hfinite
    exact reads_call (w := "STEP") rfl (reads_mixed (iha ha (by omega) (hblank _))
      (ihb hb (by omega) (hblank _)) (reads_place p (hclose _)))

end Spelling
end FieldShow
