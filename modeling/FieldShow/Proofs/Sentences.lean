import FieldShow.Proofs.Spelling

/-!
The written form of a statement, read back. Its first word tells which operands follow, each after
a blank. What the text does not tell is the size of a fountain for which only one size is given.
-/

namespace FieldShow

namespace Action

/-- What the text of an action tells of it. -/
def shown : Action → Action
  | fountain first second (some _) none p | fountain first second none (some _) p =>
    fountain first second none none p
  | a => a

def folded : Action → Action
  | assign s value => assign s value.folded
  | countermarch p q steps first second beats =>
    countermarch p q steps.folded first.folded second.folded beats.folded
  | diagonalCountermarch p q beats => diagonalCountermarch p q beats.folded
  | straightCountermarch p q beats => straightCountermarch p q beats.folded
  | evenly beats p => evenly beats.folded p
  | fountain first second size₁ size₂ p =>
    fountain first.folded second.folded (size₁.map Expr.folded) (size₂.map Expr.folded) p
  | forward steps direction => forward steps.folded direction.folded
  | toGrid size => toGrid size.folded
  | march size steps direction facing =>
    march size.folded steps.folded direction.folded (facing.map Expr.folded)
  | stand beats direction => stand beats.folded direction.folded
  | standOut direction => standOut direction.folded
  | wheel angle steps p backwards => wheel angle.folded steps.folded p backwards
  | a => a

theorem shown_shown (a : Action) : a.shown.shown = a.shown := by
  cases a with
  | fountain first second size₁ size₂ p => cases size₁ <;> cases size₂ <;> rfl
  | _ => rfl

theorem text_shown (a : Action) : a.shown.text = a.text := by
  cases a with
  | fountain first second size₁ size₂ p => cases size₁ <;> cases size₂ <;> rfl
  | _ => rfl

theorem mem_literals_of_shown {a : Action} {x : Float} (h : x ∈ a.shown.literals) :
    x ∈ a.literals := by
  cases a with
  | fountain first second size₁ size₂ p =>
    cases size₁ <;> cases size₂ <;> simp_all [shown, literals, exprs] <;> tauto
  | _ => exact h

theorem length_lt_of_mem_exprs {a : Action} (hshown : a.shown = a) :
    ∀ e ∈ a.exprs, e.text.toList.length < a.text.toList.length := by
  unfold text
  cases a with
  | fountain first second size₁ size₂ p =>
    cases size₁ <;> cases size₂ <;> cases hshown <;> simp [exprs] <;> omega
  | march size steps direction facing => cases facing <;> simp [exprs] <;> omega
  | wheel angle steps p backwards => cases backwards <;> simp [exprs] <;> omega
  | _ => simp [exprs] <;> omega

end Action

namespace Spelling

def last {α : Type} (r : Reader α) : Reader α := fun s =>
  (r s).filter (·.2 = [])

def assignment (value : Reader Expr) (v : Slot) : Reader Action := do
  next (sign '=')
  .assign v <$> next value

def march (value : Reader Expr) : Reader Action := do
  let size ← next value
  let steps ← next value
  let direction ← next value
  .march size steps direction <$> (some <$> next value <|> pure none)

def fountain (value : Reader Expr) : Reader Action := do
  let first ← next value
  let second ← next value
  last (.fountain first second none none <$> next place) <|>
    (fun size₁ size₂ p => .fountain first second (some size₁) (some size₂) p) <$> next value <*>
      next value <*> next place

def wheel (value : Reader Expr) (backwards : Bool) : Reader Action :=
  (fun angle steps p => .wheel angle steps p backwards) <$> next value <*> next value <*>
    next place

def sentences (value : Reader Expr) : List (String × Reader Action) :=
  [("BLAM", pure .blam),
    ("CM", .countermarch <$> next place <*> next place <*> next value <*> next value <*>
      next value <*> next value),
    ("DMCM", .diagonalCountermarch <$> next place <*> next place <*> next value),
    ("HSCM", .straightCountermarch <$> next place <*> next place <*> next value),
    ("DMHS", .diagonalFirst <$> next place),
    ("HSDM", .straightFirst <$> next place),
    ("EWNS", .eastWestFirst <$> next place),
    ("NSEW", .northSouthFirst <$> next place),
    ("EVEN", .evenly <$> next value <*> next place),
    ("FOUNTAIN", fountain value),
    ("FM", .forward <$> next value <*> next value),
    ("FMTO", .forwardTo <$> next place),
    ("GRID", .toGrid <$> next value),
    ("MAGIC", .jump <$> next place),
    ("MARCH", march value),
    ("MT", .stand <$> next value <*> next value),
    ("MTRM", .standOut <$> next value),
    ("ROTATE", wheel value false <|> next (headed [("BACK", wheel value true)]))] ++
  Slot.all.map fun v => (v.keyword, assignment value v)

theorem isAlphanum_of_mem_sentences {value : Reader Expr} :
    ∀ p ∈ sentences value, ∀ c ∈ p.1.toList, c.isAlphanum := by
  simp [sentences, Slot.all, Slot.keyword]

section Forms

variable {n : ℕ} {w : String} {r : Reader Action} {s t u v y : List Char} {a : Action}
  {first second third : Expr} {p q : Target}

theorem reads_sentence (hr : (sentences (expr n)).lookup w = some r)
    (h : Reads r (' ' :: s) a []) :
    Reads (headed (sentences (expr n))) (w.toList ++ ' ' :: s) a [] :=
  reads_headed (isAlphanum_of_mem_sentences _ (mem_of_lookup hr)) hr (stops_cons (by simp) s) h

theorem reads_target {f : Target → Action}
    (hr : (sentences (expr n)).lookup w = some (f <$> next place)) (hp : Reads place s p []) :
    Reads (headed (sentences (expr n))) (w.toList ++ ' ' :: s) (f p) [] :=
  reads_sentence hr hp.next.map

theorem reads_operand {f : Expr → Action}
    (hr : (sentences (expr n)).lookup w = some (f <$> next (expr n)))
    (ha : Reads (expr n) s first []) :
    Reads (headed (sentences (expr n))) (w.toList ++ ' ' :: s) (f first) [] :=
  reads_sentence hr ha.next.map

theorem reads_pair {f : Expr → Expr → Action}
    (hr : (sentences (expr n)).lookup w = some (f <$> next (expr n) <*> next (expr n)))
    (ha : Reads (expr n) s first (' ' :: t)) (hb : Reads (expr n) t second []) :
    Reads (headed (sentences (expr n))) (w.toList ++ ' ' :: s) (f first second) [] :=
  reads_sentence hr (ha.next.map.seq hb.next)

theorem reads_through {f : Target → Target → Expr → Action}
    (hr : (sentences (expr n)).lookup w =
      some (f <$> next place <*> next place <*> next (expr n)))
    (hp : Reads place s p (' ' :: t)) (hq : Reads place t q (' ' :: u))
    (ha : Reads (expr n) u first []) :
    Reads (headed (sentences (expr n))) (w.toList ++ ' ' :: s) (f p q first) [] :=
  reads_sentence hr ((hp.next.map.seq hq.next).seq ha.next)

theorem reads_march (ha : Reads (expr n) s first (' ' :: t))
    (hb : Reads (expr n) t second (' ' :: u)) (hc : Reads (expr n) u third []) :
    Reads (march (expr n)) (' ' :: s) (.march first second third none) [] :=
  ha.next.bind (hb.next.bind (hc.next.bind (Reads.orElse_right rfl (reads_pure none [])).map))

theorem reads_march_facing {facing : Expr} (ha : Reads (expr n) s first (' ' :: t))
    (hb : Reads (expr n) t second (' ' :: u)) (hc : Reads (expr n) u third (' ' :: v))
    (hd : Reads (expr n) v facing []) :
    Reads (march (expr n)) (' ' :: s) (.march first second third (some facing)) [] :=
  ha.next.bind (hb.next.bind (hc.next.bind (Reads.orElse_left hd.next.map).map))

theorem Reads.last {α : Type} {r : Reader α} {a : α} (h : Reads r s a []) :
    Reads (last r) s a [] := by
  unfold Reads at *
  rw [Spelling.last, h]
  rfl

theorem place_eq (s : List Char) : place s =
    (target? (s.takeWhile Char.isAlphanum)).map (·, s.dropWhile Char.isAlphanum) := by
  have hword : (String.ofList (s.takeWhile Char.isAlphanum)).toList = s.takeWhile Char.isAlphanum :=
    String.toList_ofList
  show (((target? (String.ofList (s.takeWhile Char.isAlphanum)).toList).bind fun p =>
    some (p, s.dropWhile Char.isAlphanum)) : Option (Target × List Char)) = _
  rw [hword, Option.map_eq_bind]
  rfl

theorem last_place_eq_none {f : Target → Action} (h : ' ' ∈ s) :
    last (f <$> next place) (' ' :: s) = none := by
  have hrest : s.dropWhile Char.isAlphanum ≠ [] := by
    rw [Ne, List.dropWhile_eq_nil_iff]
    exact fun hall => absurd (hall ' ' h) (by simp)
  have hlast : last (f <$> next place) (' ' :: s) =
      ((place s).bind fun p => some (f p.1, p.2)).filter (·.2 = []) := rfl
  rw [hlast, place_eq]
  cases target? (s.takeWhile Char.isAlphanum) with
  | none => rfl
  | some p => simpa using hrest

theorem reads_fountain (ha : Reads (expr n) s first (' ' :: t))
    (hb : Reads (expr n) t second (' ' :: u)) (hp : Reads place u p []) :
    Reads (fountain (expr n)) (' ' :: s) (.fountain first second none none p) [] :=
  ha.next.bind (hb.next.bind (Reads.orElse_left hp.next.map.last))

theorem reads_fountain_sizes {size₁ size₂ : Expr} (ha : Reads (expr n) s first (' ' :: t))
    (hb : Reads (expr n) t second (' ' :: u)) (hc : Reads (expr n) u size₁ (' ' :: v))
    (hd : Reads (expr n) v size₂ (' ' :: y)) (hp : Reads place y p []) (hu : ' ' ∈ u) :
    Reads (fountain (expr n)) (' ' :: s) (.fountain first second (some size₁) (some size₂) p) [] :=
  ha.next.bind (hb.next.bind (Reads.orElse_right (last_place_eq_none hu)
    ((hc.next.map.seq hd.next).seq hp.next)))

theorem reads_wheel (backwards : Bool) (ha : Reads (expr n) s first (' ' :: t))
    (hb : Reads (expr n) t second (' ' :: u)) (hp : Reads place u p []) :
    Reads (wheel (expr n) backwards) (' ' :: s) (.wheel first second p backwards) [] :=
  (ha.next.map.seq hb.next).seq hp.next

theorem expr_back (n : ℕ) (s : List Char) : expr n ("BACK".toList ++ ' ' :: s) = none := by
  -- the word is no number, and no phrase begins with it
  cases n with
  | zero => rfl
  | succ n =>
    have hexpr : expr (n + 1) ("BACK".toList ++ ' ' :: s) =
        (number <|> headed (phrases (expr n))) ("BACK".toList ++ ' ' :: s) :=
      expr_of_isAlphanum rfl n _
    rw [hexpr]
    exact orElse_eq_none (number_eq_none rfl _)
      (headed_eq_none (by simp) rfl (stops_cons (by simp) s))

theorem wheel_back (n : ℕ) (s : List Char) :
    wheel (expr n) false (' ' :: ("BACK".toList ++ ' ' :: s)) = none := by
  have hangle : wheel (expr n) false (' ' :: ("BACK".toList ++ ' ' :: s)) =
      (((expr n ("BACK".toList ++ ' ' :: s)).bind _).bind _).bind _ := rfl
  rw [hangle, expr_back]
  rfl

end Forms

theorem reads_action {a : Action} (hshown : a.shown = a) (hfinite : ∀ x ∈ a.literals, x.isFinite)
    {n : ℕ} (hn : a.text.toList.length ≤ n) :
    Reads (headed (sentences (expr n))) (a.text.toList ++ []) a.folded [] := by
  have hblank (s : List Char) : Stops (' ' :: s) := stops_cons (by simp) s
  have hend : Stops [] := stops_nil
  have hexprs : ∀ e ∈ a.exprs, ∀ {s}, Stops s → Reads (expr n) (e.text.toList ++ s) e.folded s :=
    fun e he _ hs => reads_expr (fun x hx => hfinite x (List.mem_flatMap.2 ⟨e, he, hx⟩))
      (Nat.lt_of_lt_of_le (Action.length_lt_of_mem_exprs hshown e he) hn) hs
  unfold Action.text
  cases a <;> simp only [Action.exprs, List.forall_mem_cons, List.forall_mem_append] at hexprs <;>
    simp only [Action.folded, String.toList_append, List.append_assoc]
  case assign v value =>
    have hread : Reads (assignment (expr n) v) _ (.assign v value.folded) [] :=
      (reads_sign '=' _).next.bind (hexprs.1 hend).next.map
    cases v <;> exact reads_sentence (w := Slot.keyword _) rfl hread
  case blam => exact reads_headed (w := "BLAM") (by simp) rfl hend (reads_pure _ _)
  case countermarch p q steps first second beats =>
    obtain ⟨hsteps, hfirst, hsecond, hbeats, -⟩ := hexprs
    exact reads_sentence (w := "CM") rfl
      ((((((reads_place p (hblank _)).next.map.seq (reads_place q (hblank _)).next).seq
        (hsteps (hblank _)).next).seq (hfirst (hblank _)).next).seq
        (hsecond (hblank _)).next).seq (hbeats hend).next)
  case diagonalCountermarch p q beats =>
    exact reads_through (w := "DMCM") rfl (reads_place p (hblank _)) (reads_place q (hblank _))
      (hexprs.1 hend)
  case straightCountermarch p q beats =>
    exact reads_through (w := "HSCM") rfl (reads_place p (hblank _)) (reads_place q (hblank _))
      (hexprs.1 hend)
  case diagonalFirst p => exact reads_target (w := "DMHS") rfl (reads_place p hend)
  case straightFirst p => exact reads_target (w := "HSDM") rfl (reads_place p hend)
  case eastWestFirst p => exact reads_target (w := "EWNS") rfl (reads_place p hend)
  case northSouthFirst p => exact reads_target (w := "NSEW") rfl (reads_place p hend)
  case forwardTo p => exact reads_target (w := "FMTO") rfl (reads_place p hend)
  case jump p => exact reads_target (w := "MAGIC") rfl (reads_place p hend)
  case evenly beats p =>
    exact reads_sentence (w := "EVEN") rfl
      ((hexprs.1 (hblank _)).next.map.seq (reads_place p hend).next)
  case forward steps direction =>
    exact reads_pair (w := "FM") rfl (hexprs.1 (hblank _)) (hexprs.2.1 hend)
  case stand beats direction =>
    exact reads_pair (w := "MT") rfl (hexprs.1 (hblank _)) (hexprs.2.1 hend)
  case toGrid size => exact reads_operand (w := "GRID") rfl (hexprs.1 hend)
  case standOut direction => exact reads_operand (w := "MTRM") rfl (hexprs.1 hend)
  case fountain first second size₁ size₂ p =>
    obtain ⟨⟨⟨hfirst, hsecond, -⟩, hsize₁⟩, hsize₂⟩ := hexprs
    cases size₁ <;> cases size₂ <;> cases hshown <;>
      simp only [String.toList_append, List.append_assoc]
    · exact reads_sentence (w := "FOUNTAIN") rfl
        (reads_fountain (hfirst (hblank _)) (hsecond (hblank _)) (reads_place p hend))
    · next size₁ size₂ =>
      simp only [Option.toList_some, List.forall_mem_singleton] at hsize₁ hsize₂
      exact reads_sentence (w := "FOUNTAIN") rfl
        (reads_fountain_sizes (hfirst (hblank _)) (hsecond (hblank _)) (hsize₁ (hblank _))
          (hsize₂ (hblank _)) (reads_place p hend) (by simp))
  case march size steps direction facing =>
    obtain ⟨⟨hsize, hsteps, hdirection, -⟩, hfacing⟩ := hexprs
    cases facing with
    | none =>
      exact reads_sentence (w := "MARCH") rfl
        (reads_march (hsize (hblank _)) (hsteps (hblank _)) (hdirection hend))
    | some facing =>
      simp only [Option.toList_some, List.forall_mem_singleton] at hfacing
      simp only [String.toList_append, List.append_assoc]
      exact reads_sentence (w := "MARCH") rfl
        (reads_march_facing (hsize (hblank _)) (hsteps (hblank _)) (hdirection (hblank _))
          (hfacing hend))
  case wheel angle steps p backwards =>
    have hwheel := reads_wheel backwards (hexprs.2.1 (hblank _)) (hexprs.1 (hblank _))
      (reads_place p hend)
    cases backwards with
    | false => exact reads_sentence (w := "ROTATE") rfl (Reads.orElse_left hwheel)
    | true =>
      have hback : Reads (headed [("BACK", wheel (expr n) true)]) _ (.wheel _ _ p true) [] :=
        reads_headed (w := "BACK") (by simp) rfl (hblank _) hwheel
      exact reads_sentence (w := "ROTATE") rfl (Reads.orElse_right (wheel_back n _) hback.next)

end Spelling

open Spelling

/-! ## Texts that are alike -/

def Action.ofText? (text : String) : Option Action :=
  (headed (sentences (expr text.toList.length)) text.toList).map Prod.fst

theorem Action.ofText?_text {a : Action} (h : ∀ x ∈ a.literals, x.isFinite) :
    ofText? a.text = some a.shown.folded := by
  have hread := reads_action a.shown_shown (fun x hx => h x (mem_literals_of_shown hx)) le_rfl
  rw [text_shown, List.append_nil] at hread
  rw [ofText?, hread]
  rfl

/-- Statements that are written alike are alike in all that their texts tell. -/
theorem Statement.shown_eq_of_text_eq {a b : Statement}
    (ha : ∀ x ∈ a.action.literals, x.isFinite) (hb : ∀ x ∈ b.action.literals, x.isFinite)
    (h : a.text = b.text) : a.action.shown.folded = b.action.shown.folded := by
  have hread : Action.ofText? a.text = Action.ofText? b.text := by rw [h]
  rw [text, text, Action.ofText?_text ha, Action.ofText?_text hb] at hread
  exact Option.some.inj hread

def Statement.standing (direction : Expr) : Statement := ⟨.standOut direction, none⟩

theorem Statement.shown_eq_of_text_eq_minus :
    (standing (.neg (.number 2))).text = (standing (.number (-2))).text ∧
      (standing (.neg (.number 2))).action.shown.folded =
        (standing (.number (-2))).action.shown.folded := by
  have htext : (standing (.neg (.number 2))).text = (standing (.number (-2))).text := by
    decide +kernel
  exact ⟨htext, shown_eq_of_text_eq (by decide +kernel) (by decide +kernel) htext⟩

def Statement.spray (size : Option Expr) : Statement :=
  ⟨.fountain (.constant .north) (.constant .east) size none .next, none⟩

/-- A size that stands alone is hidden. -/
theorem Statement.not_folded_eq_of_text_eq :
    ¬∀ a b : Statement, (∀ x ∈ a.action.literals, x.isFinite) →
      (∀ x ∈ b.action.literals, x.isFinite) → a.text = b.text →
        a.action.folded = b.action.folded := by
  intro h
  have halike := h (spray (some (.number 2))) (spray none) (by decide +kernel) (by decide +kernel)
    rfl
  cases halike

end FieldShow
