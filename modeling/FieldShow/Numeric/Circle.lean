import FieldShow.Numeric.Exact

/-!
Sine, cosine and the angle of an integer vector. The last bits of these functions differ from one
platform to the next; what follows is one choice, so that they can be computed, and no theorem is
about their values. They are worked out in integer arithmetic on numbers scaled by a power of two.
A result carries some 190 correct bits before it is rounded to binary64, so it is the nearest
binary64 number to the true value unless that lies all but halfway between two.
-/

namespace FieldShow.Numeric

/-- Bits kept after the point while an angle or a ratio is computed. -/
def precision : Nat := 192

/-! ## The arc tangent -/

/-- The first `n` terms of Euler's series from its term `t`, the `k`-th one. Each term is the
one before it times `(2k + 2) / (2k + 3) * sq / den`. -/
def eulerSum (sq den : Nat) : Nat → Nat → Nat → Nat
  | 0, _, _ => 0
  | n + 1, k, t =>
    if t = 0 then 0
    else t + eulerSum sq den n (k + 1) (t * ((2 * k + 2) * sq) / ((2 * k + 3) * den))

def arctan (p a b : Nat) : Nat :=
  eulerSum (a * a) (a * a + b * b) (p + 1) 0 ((a * b) <<< p / (a * a + b * b))

def halfTurn (p : Nat) : Nat := 16 * arctan p 1 5 - 4 * arctan p 1 239

/-- The angle in radians of the vector `(x, y)`, from `-π` to `π`; zero for the zero vector. It
stands in for a function whose last bits are left open. -/
def angleOf (x y : Int) : Float :=
  let a := x.natAbs
  let b := y.natAbs
  if a = 0 ∧ b = 0 then 0
  else
    let acute : Nat :=
      if b ≤ a then arctan precision b a else halfTurn precision / 2 - arctan precision a b
    let upper : Nat := if x < 0 then halfTurn precision - acute else acute
    ofScaled (if y < 0 then -(upper : Int) else upper) precision

/-! ## Sine and cosine -/

def one : Int := (1 : Int) <<< precision

/-- The first `n` terms of an alternating power series from its term `t`, of degree `k`. Each
term is the one before it times `-sq / ((k + 1) * (k + 2))`, `sq` being a scaled square. -/
def alternatingSum (sq : Int) : Nat → Nat → Int → Int
  | 0, _, _ => 0
  | n + 1, k, t =>
    if t = 0 then 0
    else t + alternatingSum sq n (k + 2)
      (-((t * sq).tdiv (one * ((k + 1) * (k + 2)))))

def sinSeries (r : Int) : Int := alternatingSum (r * r / one) precision 1 r

def cosSeries (r : Int) : Int := alternatingSum (r * r / one) precision 0 one

/-- An angle `m * 2 ^ e` as a whole number of quarter turns and a scaled rest of at most an
eighth of a turn. As many further bits of a quarter turn enter as the angle has before its
point, so that large angles keep the precision of small ones. -/
def quarterTurns (m e : Int) : Int × Int :=
  let size := (m.natAbs.log2 + 1 + e).toNat
  let p := precision + size
  let angle := if 0 ≤ p + e then m <<< (p + e).toNat else m >>> (-(p + e)).toNat
  let quarter : Int := halfTurn p / 2
  let turns := (2 * angle + quarter) / (2 * quarter)
  (turns, (angle - turns * quarter) >>> size)

def sinShifted (shift m e : Int) : Float :=
  let (turns, rest) := quarterTurns m e
  let value := match (turns + shift) % 4 with
    | 0 => sinSeries rest
    | 1 => cosSeries rest
    | 2 => -sinSeries rest
    | _ => -cosSeries rest
  ofScaled value precision

/-- The sine or cosine of `x` radians; `tiny` is the answer for an angle too small for the
second term of the series to matter. -/
def circular (shift : Int) (tiny x : Float) : Float :=
  match x.toModel.unpack with
  | .zero _ => tiny
  | .finite sign m e _ =>
    if m.log2 + 1 + e < -27 then tiny
    else sinShifted shift (match sign with | .positive => m | .negative => -m) e
  | _ => 0 / 0

/-- This and `cos` stand in for functions whose last bits are left open. -/
def sin (x : Float) : Float := circular 0 x x

def cos (x : Float) : Float := circular 1 1 x

end FieldShow.Numeric
