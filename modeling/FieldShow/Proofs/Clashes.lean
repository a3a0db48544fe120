import Mathlib.Algebra.Order.Ring.Int
import Mathlib.Data.List.Induction
import FieldShow.Proofs.Saturation
import FieldShow.Timeline.Clash

/-!
The clashes found among some places. They are those of all pairs that are no farther apart than
allowed, each pair once, and none of the numbers that are squared to find them is too large for 64
bits: whoever is too far along one axis is left out before.
-/

namespace FieldShow

namespace Numeric

def IsWord (n : Int) : Prop := -9223372036854775808 ≤ n ∧ n < 9223372036854775808

instance (n : Int) : Decidable (IsWord n) := inferInstanceAs (Decidable (_ ∧ _))

def word? (n : Int) : Option Int := if IsWord n then some n else none

theorem bind_word? {α : Type} {n : Int} (h : IsWord n) (f : Int → Option α) :
    (word? n >>= f) = f n := by
  rw [word?, if_pos h]
  rfl

theorem isWord_of_natAbs_le {n : Int} (h : n.natAbs ≤ 9223372036854775807) : IsWord n :=
  ⟨by omega, by omega⟩

theorem square_lt {t d : Int} (ht : 0 ≤ t) (h : t < d.natAbs) : t * t < d * d := by
  have hlt := Int.mul_self_lt_mul_self ht h
  rwa [Int.natAbs_mul_self'] at hlt

theorem square_le {t d : Int} (h : (d.natAbs : Int) ≤ t) : d * d ≤ t * t := by
  have hle := Int.mul_self_le_mul_self (Int.natCast_nonneg d.natAbs) h
  rwa [Int.natAbs_mul_self'] at hle

theorem isWord_squares {t dx dy : Int} (ht : t < 2147483648) (hx : (dx.natAbs : Int) ≤ t)
    (hy : (dy.natAbs : Int) ≤ t) :
    IsWord (dx * dx) ∧ IsWord (dy * dy) ∧ IsWord (dx * dx + dy * dy) ∧ IsWord (t * t) := by
  have hxx := square_le hx
  have hyy := square_le hy
  have hxx₀ := mul_self_nonneg dx
  have hyy₀ := mul_self_nonneg dy
  have htt : t * t ≤ 2147483647 * 2147483647 := by
    apply Int.mul_self_le_mul_self <;> omega
  refine ⟨?_, ?_, ?_, ?_⟩ <;> apply isWord_of_natAbs_le <;> omega

end Numeric

open Numeric

theorem Vec.distanceSq_comm (v w : Vec) : v.distanceSq w = w.distanceSq v := by
  have swap (a b : Int) : (a - b) * (a - b) = (b - a) * (b - a) := by
    rw [← Int.neg_sub b a, Int.neg_mul_neg]
  simp only [distanceSq, swap v.x.toInt, swap v.y.toInt]

namespace Closeness

variable {v w : Vec} {least : Int32} {k : Closeness}

/-- What there is between two places, told by the square of their distance. -/
def Tells (v w : Vec) (least : Int32) : Closeness → Prop
  | warning => 0 ≤ least.toInt ∧ v.distanceSq w = least.toInt * least.toInt
  | intersect => 0 ≤ least.toInt ∧ v.distanceSq w < least.toInt * least.toInt

theorem tells_comm : Tells v w least k ↔ Tells w v least k := by
  cases k <;> simp only [Tells, Vec.distanceSq_comm v w]

theorem lt_distanceSq (hleast : 0 ≤ least.toInt)
    (hfar : least.toInt < (v.x.toInt - w.x.toInt).natAbs ∨
      least.toInt < (v.y.toInt - w.y.toInt).natAbs) :
    least.toInt * least.toInt < v.distanceSq w := by
  -- one square is too large by itself, and the other is not negative
  have hx := mul_self_nonneg (v.x.toInt - w.x.toInt)
  have hy := mul_self_nonneg (v.y.toInt - w.y.toInt)
  rcases hfar with hfar | hfar
  · exact Int.lt_of_lt_of_le (square_lt hleast hfar) (Int.le_add_of_nonneg_right hy)
  · exact Int.lt_of_lt_of_le (square_lt hleast hfar) (Int.le_add_of_nonneg_left hx)

theorem Tells.nonneg (h : Tells v w least k) : 0 ≤ least.toInt := by
  cases k <;> exact h.1

theorem Tells.distanceSq_le (h : Tells v w least k) :
    v.distanceSq w ≤ least.toInt * least.toInt := by
  cases k with
  | warning => exact Int.le_of_eq h.2
  | intersect => exact Int.le_of_lt h.2

theorem between_eq_some_iff : between v w least = some k ↔ Tells v w least k := by
  unfold between
  dsimp only
  split
  · next hfar =>
    refine iff_of_false nofun fun h => ?_
    exact Int.not_lt.2 h.distanceSq_le (lt_distanceSq h.nonneg hfar)
  · next hnear =>
    have hleast : 0 ≤ least.toInt := by omega
    cases k <;> simp only [Tells, hleast, true_and] <;> grind

/-! ## Sixty-four bits -/

/-- The same calculation, which comes to nothing as soon as a result is not one of 64 bits. -/
def inWords (v w : Vec) (least : Int32) : Option (Option Closeness) := do
  let t ← word? least.toInt
  let dx ← word? (v.x.toInt - w.x.toInt)
  let dy ← word? (v.y.toInt - w.y.toInt)
  if t < (← word? dx.natAbs) ∨ t < (← word? dy.natAbs) then
    return none
  else
    let distance ← word? ((← word? (dx * dx)) + (← word? (dy * dy)))
    let limit ← word? (t * t)
    return if distance < limit then some intersect
      else if distance = limit then some warning
      else none

theorem inWords_eq (v w : Vec) (least : Int32) :
    inWords v w least = some (between v w least) := by
  have ht := fits_toInt least
  have hvx := fits_toInt v.x
  have hvy := fits_toInt v.y
  have hwx := fits_toInt w.x
  have hwy := fits_toInt w.y
  unfold Fits at ht hvx hvy hwx hwy
  have hx : (v.x.toInt - w.x.toInt).natAbs < 4294967296 := by omega
  have hy : (v.y.toInt - w.y.toInt).natAbs < 4294967296 := by omega
  unfold inWords between Vec.distanceSq
  generalize v.x.toInt - w.x.toInt = dx, v.y.toInt - w.y.toInt = dy, least.toInt = t at *
  dsimp only
  have hWord : IsWord t := isWord_of_natAbs_le (by omega)
  have hdx : IsWord dx := isWord_of_natAbs_le (by omega)
  have hdy : IsWord dy := isWord_of_natAbs_le (by omega)
  have habsx : IsWord dx.natAbs := isWord_of_natAbs_le (by omega)
  have habsy : IsWord dy.natAbs := isWord_of_natAbs_le (by omega)
  rw [bind_word? hWord, bind_word? hdx, bind_word? hdy, bind_word? habsx, bind_word? habsy]
  split
  · rfl
  · next hnear =>
    -- what is left to be squared is no longer than the least distance
    have hxt : (dx.natAbs : Int) ≤ t := by omega
    have hyt : (dy.natAbs : Int) ≤ t := by omega
    obtain ⟨hxx, hyy, hsum, hlimit⟩ := isWord_squares (by omega) hxt hyt
    rw [bind_word? hxx, bind_word? hyy, bind_word? hsum, bind_word? hlimit]
    rfl

end Closeness

/-! ## All pairs -/

namespace Pair

def Before (p q : Pair) : Prop := p.first < q.first ∨ p.first = q.first ∧ p.second < q.second

theorem of_lt {i j : Nat} (h : i < j) : of i j = ⟨i, j⟩ := by
  rw [of, Nat.min_eq_left (Nat.le_of_lt h), Nat.max_eq_right (Nat.le_of_lt h)]

end Pair

namespace Clashes

variable {least : Int32} {v : Vec} {ps ws : List Vec} {i j n : Nat} {p : Pair} {k : Closeness}

theorem withLater_eq (least : Int32) (i : Nat) (v : Vec) (j : Nat) (ws : List Vec) :
    withLater least i v j ws = (ws.zipIdx j).filterMap fun q =>
      (Closeness.between v q.1 least).map (Pair.of i q.2, ·) := by
  induction ws generalizing j with
  | nil => rfl
  | cons w ws ih =>
    rw [List.zipIdx_cons, List.filterMap_cons, withLater, ih]
    cases Closeness.between v w least <;> rfl

theorem mem_withLater (h : i < j) : (p, k) ∈ withLater least i v j ws ↔
    p.first = i ∧ j ≤ p.second ∧
      ∃ w, ws[p.second - j]? = some w ∧ Closeness.Tells v w least k := by
  rw [withLater_eq, List.mem_filterMap]
  constructor
  · rintro ⟨⟨w, n⟩, hmem, hfound⟩
    obtain ⟨hle, hw⟩ := List.mk_mem_zipIdx_iff_le_and_getElem?_sub.1 hmem
    obtain ⟨c, hc, heq⟩ := Option.map_eq_some_iff.1 hfound
    rw [Pair.of_lt (Nat.lt_of_lt_of_le h hle), Prod.mk.injEq] at heq
    obtain ⟨rfl, rfl⟩ := heq
    exact ⟨rfl, hle, w, hw, Closeness.between_eq_some_iff.1 hc⟩
  · rintro ⟨rfl, hle, w, hw, hk⟩
    refine ⟨(w, p.second), List.mk_mem_zipIdx_iff_le_and_getElem?_sub.2 ⟨hle, hw⟩, ?_⟩
    rw [Closeness.between_eq_some_iff.2 hk, Pair.of_lt (Nat.lt_of_lt_of_le h hle)]
    rfl

/-- Two of some places that are too close, in either order. -/
def Meet (ps : List Vec) (least : Int32) (i j : Nat) (k : Closeness) : Prop :=
  ∃ v w, ps[i]? = some v ∧ ps[j]? = some w ∧ Closeness.Tells v w least k

theorem meet_comm : Meet ps least i j k ↔ Meet ps least j i k := by
  have swap {i j : Nat} : Meet ps least i j k → Meet ps least j i k := by
    rintro ⟨v, w, hv, hw, hk⟩
    exact ⟨w, v, hw, hv, Closeness.tells_comm.1 hk⟩
  exact ⟨swap, swap⟩

theorem meet_cons_zero :
    Meet (v :: ps) least 0 (j + 1) k ↔ ∃ w, ps[j]? = some w ∧ Closeness.Tells v w least k := by
  simp only [Meet, List.getElem?_cons_zero, List.getElem?_cons_succ, Option.some.injEq]
  constructor
  · rintro ⟨_, w, rfl, hw, hk⟩
    exact ⟨w, hw, hk⟩
  · rintro ⟨w, hw, hk⟩
    exact ⟨v, w, rfl, hw, hk⟩

theorem meet_cons_succ : Meet (v :: ps) least (i + 1) (j + 1) k ↔ Meet ps least i j k := by
  simp only [Meet, List.getElem?_cons_succ]

theorem mem_among : (p, k) ∈ among least i ps ↔
    i ≤ p.first ∧ p.first < p.second ∧ Meet ps least (p.first - i) (p.second - i) k := by
  induction ps generalizing i with
  | nil => simp [among, Meet]
  | cons v ps ih =>
    -- a pair begins with `v` or lies among the places after it, where indices are one less
    rw [among, List.mem_append, mem_withLater (Nat.lt_succ_self i), ih]
    constructor
    · rintro (⟨rfl, hle, hmeet⟩ | ⟨hle, hlt, hmeet⟩)
      · refine ⟨Nat.le_refl _, hle, ?_⟩
        have hsecond : p.second - p.first = p.second - (p.first + 1) + 1 := by omega
        rwa [Nat.sub_self, hsecond, meet_cons_zero]
      · refine ⟨by omega, hlt, ?_⟩
        have hfirst : p.first - i = p.first - (i + 1) + 1 := by omega
        have hsecond : p.second - i = p.second - (i + 1) + 1 := by omega
        rwa [hfirst, hsecond, meet_cons_succ]
    · rintro ⟨hle, hlt, hmeet⟩
      have hsecond : p.second - i = p.second - (i + 1) + 1 := by omega
      rw [hsecond] at hmeet
      rcases Nat.eq_or_lt_of_le hle with rfl | hlater
      · rw [Nat.sub_self, meet_cons_zero] at hmeet
        exact .inl ⟨rfl, hlt, hmeet⟩
      · have hfirst : p.first - i = p.first - (i + 1) + 1 := by omega
        rw [hfirst, meet_cons_succ] at hmeet
        exact .inr ⟨hlater, hlt, hmeet⟩

theorem withLater_sorted (least : Int32) (i : Nat) (v : Vec) (j : Nat) (ws : List Vec) (h : i < j) :
    (withLater least i v j ws).Pairwise fun a b => a.1.Before b.1 := by
  induction ws generalizing j with
  | nil => exact .nil
  | cons w ws ih =>
    have hrest := ih (j + 1) (Nat.lt_succ_of_lt h)
    rw [withLater]
    split
    · refine List.pairwise_cons.2 ⟨?_, hrest⟩
      rintro ⟨q, c⟩ hq
      obtain ⟨hfirst, hlater, -⟩ := (mem_withLater (Nat.lt_succ_of_lt h)).1 hq
      rw [Pair.of_lt h]
      exact .inr ⟨hfirst.symm, hlater⟩
    · exact hrest

theorem among_sorted (least : Int32) (i : Nat) (ps : List Vec) :
    (among least i ps).Pairwise fun a b => a.1.Before b.1 := by
  induction ps generalizing i with
  | nil => exact .nil
  | cons v ps ih =>
    rw [among, List.pairwise_append]
    refine ⟨withLater_sorted least i v (i + 1) ps (Nat.lt_succ_self i), ih (i + 1), ?_⟩
    rintro ⟨p, c⟩ hp ⟨q, d⟩ hq
    obtain ⟨rfl, -⟩ := (mem_withLater (Nat.lt_succ_self i)).1 hp
    exact .inl (mem_among.1 hq).1

theorem mem_find : (p, k) ∈ find ps least ↔
    p.first < p.second ∧ Meet ps least p.first p.second k := by
  rw [find, mem_among, Nat.sub_zero, Nat.sub_zero, and_iff_right (Nat.zero_le _)]

theorem exists_contains_iff :
    (∃ p : Pair, p.Contains n ∧ (p, k) ∈ find ps least) ↔ ∃ m, m ≠ n ∧ Meet ps least n m k := by
  constructor
  · rintro ⟨p, hn, hp⟩
    obtain ⟨hlt, hmeet⟩ := mem_find.1 hp
    rcases hn with rfl | rfl
    · exact ⟨p.second, Nat.ne_of_gt hlt, hmeet⟩
    · exact ⟨p.first, Nat.ne_of_lt hlt, meet_comm.1 hmeet⟩
  · rintro ⟨m, hne, hmeet⟩
    rcases Nat.lt_or_gt_of_ne hne with hlt | hlt
    · exact ⟨⟨m, n⟩, .inr rfl, mem_find.2 ⟨hlt, meet_comm.1 hmeet⟩⟩
    · exact ⟨⟨n, m⟩, .inl rfl, mem_find.2 ⟨hlt, hmeet⟩⟩

end Clashes

namespace Closeness

def severity : Closeness → Nat
  | warning => 0
  | intersect => 1

def IsWorst (P : Closeness → Prop) : Option Closeness → Prop
  | none => ∀ k, ¬P k
  | some k => P k ∧ ∀ c, P c → c.severity ≤ k.severity

variable {P Q : Closeness → Prop} {worst : Option Closeness}

theorem IsWorst.congr (h : IsWorst P worst) (hPQ : ∀ k, P k ↔ Q k) : IsWorst Q worst := by
  obtain rfl : P = Q := funext fun k => propext (hPQ k)
  exact h

theorem isWorst_max (c d : Closeness) : IsWorst (fun k => k = c ∨ k = d) (some (c.max d)) := by
  cases c <;> cases d <;> simp [IsWorst, max, severity]

theorem IsWorst.add (h : IsWorst P worst) (d : Closeness) :
    IsWorst (fun k => P k ∨ k = d) (some (worst.elim d (·.max d))) := by
  cases worst with
  | none =>
    refine ⟨.inr rfl, ?_⟩
    rintro c (hc | rfl)
    · exact absurd hc (h c)
    · exact Nat.le_refl _
  | some k =>
    obtain ⟨hk, hworst⟩ := h
    obtain ⟨hmax, hle⟩ := isWorst_max k d
    constructor
    · change P (k.max d) ∨ k.max d = d
      refine hmax.imp_left fun heq => ?_
      rwa [heq]
    · rintro c (hc | rfl)
      · exact Nat.le_trans (hworst c hc) (hle k (.inl rfl))
      · exact hle c (.inr rfl)

end Closeness

namespace Clashes

open Closeness

theorem worst?_concat (clashes : Clashes) (p : Pair) (k : Closeness) (n : Nat) :
    worst? (clashes ++ [(p, k)]) n =
      if p.Contains n then some ((clashes.worst? n).elim k (·.max k)) else clashes.worst? n := by
  rw [worst?, List.foldl_append]
  rfl

theorem isWorst_worst? (clashes : Clashes) (n : Nat) :
    IsWorst (fun k => ∃ p : Pair, p.Contains n ∧ (p, k) ∈ clashes) (clashes.worst? n) := by
  -- from the end, as the fold looks at the last clash last
  induction clashes using List.reverseRecOn with
  | nil =>
    rintro k ⟨p, -, hp⟩
    exact absurd hp List.not_mem_nil
  | append_singleton clashes clash ih =>
    obtain ⟨q, d⟩ := clash
    rw [worst?_concat]
    split
    · next hq =>
      refine (ih.add d).congr fun k => ?_
      constructor
      · rintro (⟨p, hp, hmem⟩ | rfl)
        · exact ⟨p, hp, List.mem_append_left _ hmem⟩
        · exact ⟨q, hq, List.mem_append_right _ (.head _)⟩
      · rintro ⟨p, hp, hmem⟩
        rcases List.mem_append.1 hmem with hmem | hmem
        · exact .inl ⟨p, hp, hmem⟩
        · exact .inr (Prod.mk.inj (List.mem_singleton.1 hmem)).2
    · next hq =>
      refine ih.congr fun k => ?_
      constructor
      · rintro ⟨p, hp, hmem⟩
        exact ⟨p, hp, List.mem_append_left _ hmem⟩
      · rintro ⟨p, hp, hmem⟩
        rcases List.mem_append.1 hmem with hmem | hmem
        · exact ⟨p, hp, hmem⟩
        · obtain ⟨rfl, -⟩ := Prod.mk.inj (List.mem_singleton.1 hmem)
          exact absurd hp hq

/-- All clashes are found, each of them once and with no number beyond 64 bits on the way, and what
is told of a marcher is the worst of its clashes. -/
theorem find_exact (ps : List Vec) (least : Int32) :
    (∀ v w, inWords v w least = some (between v w least)) ∧
    (∀ p k, (p, k) ∈ find ps least ↔ p.first < p.second ∧ Meet ps least p.first p.second k) ∧
    (find ps least).Pairwise (fun a b => a.1.Before b.1) ∧
    ∀ n, IsWorst (fun k => ∃ m, m ≠ n ∧ Meet ps least n m k) ((find ps least).worst? n) := by
  refine ⟨fun v w => inWords_eq v w least, fun p k => mem_find, among_sorted least 0 ps, ?_⟩
  intro n
  exact (isWorst_worst? (find ps least) n).congr fun k => exists_contains_iff

example : find [⟨-2147483648, 0⟩, ⟨2147483647, 0⟩, ⟨-1, 0⟩] 2147483647 =
    [(⟨0, 2⟩, .warning)] := by decide

end Clashes
end FieldShow
