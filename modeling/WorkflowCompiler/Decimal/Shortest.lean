import WorkflowCompiler.Decimal.Binary64

/-! # Shortest decimals

A finite number is written with the fewest digits that read back as the same number; of several
such decimals the nearest to the number is taken.
-/
namespace WorkflowCompiler.Decimal

structure Scientific where
  digits : Nat
  exponent : Int

def scale (n : Nat) (e : Int) : Nat × Nat :=
  if 0 ≤ e then (n * pow2 e.toNat, 1) else (n, pow2 (-e).toNat)

/-- How many factors of ten a fraction below one lacks to reach one, at most `fuel`. -/
def leadingZeros : (fuel : Nat) → (num den : Nat) → Nat
  | 0, _, _ => 0
  | fuel + 1, num, den => if den ≤ num * 10 then 0 else leadingZeros fuel (num * 10) den + 1

/-- The place of the first digit: a fraction lies between `10 ^ (p - 1)` and `10 ^ p`. -/
def place (num den : Nat) : Int :=
  if den ≤ num then (Nat.toDigits 10 (num / den)).length else -(leadingZeros 400 num den : Int)

/-- The numbers that read back as `m * 2 ^ q`, in quarters of its last place: the gap below a power
of two is half as wide, and the ends belong to an even mantissa. -/
structure Interval where
  low : Nat
  high : Nat
  closed : Bool

def intervalOf (m : Nat) (q : Int) : Interval where
  low := 4 * m - if m = pow2 52 && -1074 < q then 1 else 2
  high := 4 * m + 2
  closed := m % 2 == 0

/-- Whether `c * 10 ^ k` lies in the interval whose unit is `2 ^ e`. -/
def Interval.has (i : Interval) (e : Int) (c : Nat) (k : Int) : Bool :=
  let (cn, cd) := if 0 ≤ k then (c * pow10 k.toNat, 1) else (c, pow10 (-k).toNat)
  let (ln, ld) := scale i.low e
  let (hn, hd) := scale i.high e
  if i.closed then ln * cd ≤ cn * ld && cn * hd ≤ hn * cd
  else ln * cd < cn * ld && cn * hd < hn * cd

/-- The better of the two neighbours on the grid of `10 ^ k` that lie in the interval. -/
def candidate? (i : Interval) (m : Nat) (q : Int) (k : Int) : Option Nat :=
  let (vn, vd) := scale m q
  let (n, d) := if 0 ≤ k then (vn, vd * pow10 k.toNat) else (vn * pow10 (-k).toNat, vd)
  let below := n / d
  match i.has (q - 2) below k, i.has (q - 2) (below + 1) k with
  | true, true => some (roundDiv n d)
  | true, false => some below
  | false, true => some (below + 1)
  | false, false => none

def search (i : Interval) (m : Nat) (q : Int) : (fuel : Nat) → (k : Int) → Scientific
  | 0, k => ⟨(candidate? i m q k).getD 0, k⟩
  | fuel + 1, k =>
    match candidate? i m q k with
    | some digits => ⟨digits, k⟩
    | none => search i m q fuel (k - 1)

def shortest (m : Nat) (q : Int) : Scientific :=
  let (n, d) := scale m q
  search (intervalOf m q) m q 17 (place n d - 1)

/-- How numbers are laid out: positionally while the exponent of the first digit lies from
`least` up to below `limit`, else with an exponent of at least `width` digits. -/
structure Layout where
  least : Int
  limit : Int
  width : Nat

def plainLayout : Layout := ⟨-4, 16, 2⟩

def exponentText (layout : Layout) (e : Int) : String :=
  let digits := Nat.repr e.natAbs
  (if e < 0 then "e-" else "e+") ++ "".pushn '0' (layout.width - digits.length) ++ digits

/-- The digits `ds` with the decimal point `point` places after their beginning. -/
def positional (ds : List Char) (point : Int) : String :=
  if point ≤ 0 then "0." ++ "".pushn '0' (-point).toNat ++ String.ofList ds
  else if ds.length ≤ point.toNat then
    String.ofList ds ++ "".pushn '0' (point.toNat - ds.length) ++ ".0"
  else String.ofList (ds.take point.toNat) ++ "." ++ String.ofList (ds.drop point.toNat)

def scientific (layout : Layout) (ds : List Char) (e : Int) : String :=
  let tail := ds.drop 1
  String.ofList (ds.take 1) ++ (if tail.isEmpty then "" else "." ++ String.ofList tail)
    ++ exponentText layout e

def stripZeros (ds : List Char) : List Char := (ds.reverse.dropWhile (· = '0')).reverse

def Layout.write (layout : Layout) (x : Scientific) : String :=
  let all := Nat.toDigits 10 x.digits
  let ds := stripZeros all
  let e : Int := x.exponent + all.length - 1
  if layout.least ≤ e && e < layout.limit then positional ds (e + 1) else scientific layout ds e

def text (x : Float) : String :=
  if isNaN x then "nan"
  else
    let sign := if isNegative x then "-" else ""
    if isInfinite x then sign ++ "inf"
    else
      let (m, q) := magnitude x
      sign ++ if m = 0 then "0.0" else plainLayout.write (shortest m q)

end WorkflowCompiler.Decimal
