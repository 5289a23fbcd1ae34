/-! # Binary64 numbers as fractions

A finite binary64 number is `m * 2 ^ q` with a natural `m` below `2 ^ 53`. This module takes a
number apart, and finds the number nearest to a fraction.
-/
namespace WorkflowCompiler.Decimal

def pow2 (k : Nat) : Nat := Nat.pow 2 k

def pow10 (k : Nat) : Nat := Nat.pow 10 k

/-- The magnitude of a finite number: mantissa and binary exponent. -/
def magnitude (x : Float) : Nat × Int :=
  let bits : Nat := x.toBits.toNat
  let exponent : Nat := bits / pow2 52 % 2048
  let fraction : Nat := bits % pow2 52
  if exponent = 0 then (fraction, -1074) else (fraction + pow2 52, exponent - 1075)

def isNegative (x : Float) : Bool := x.toBits.toNat ≥ pow2 63

def isNaN (x : Float) : Bool := !(x == x)

def isInfinite (x : Float) : Bool := x.toBits.toNat % pow2 63 = 2047 * pow2 52

def isFinite (x : Float) : Bool := x.toBits.toNat % pow2 63 < 2047 * pow2 52

def infinity : Float := Float.ofBits (2047 * pow2 52).toUInt64

def nan : Float := Float.ofBits (4095 * pow2 51).toUInt64

/-- A quotient rounded to the nearest natural number, a half to the even one. -/
def roundDiv (num den : Nat) : Nat :=
  let quotient := num / den
  let twice := 2 * (num % den)
  if twice < den then quotient
  else if den < twice then quotient + 1
  else quotient + quotient % 2

/-- Numerator and denominator of `num / den / 2 ^ e`. -/
def unscale (num den : Nat) (e : Int) : Nat × Nat :=
  if 0 ≤ e then (num, den * pow2 e.toNat) else (num * pow2 (-e).toNat, den)

/-- The binary exponent at which a positive fraction has a mantissa of 53 bits, or as many as the
smallest exponent leaves it. -/
def exponentFor (num den : Nat) : Int :=
  let guess : Int := (num.log2 : Int) - den.log2 - 52
  let (n, d) := unscale num den guess
  max (if n < d * pow2 52 then guess - 1 else guess) (-1074)

def roundAt (num den : Nat) (e : Int) : Nat :=
  let (n, d) := unscale num den e
  roundDiv n d

/-- The bits of `mantissa * 2 ^ e` with a mantissa below `2 ^ 53`; none when that is beyond the
largest finite number. -/
def pack? (mantissa : Nat) (e : Int) : Option Nat :=
  if 971 < e then none
  else if mantissa < pow2 52 then some mantissa
  else some ((e + 1075).toNat * pow2 52 + (mantissa - pow2 52))

/-- The same for a mantissa that has been rounded, and may have reached `2 ^ 53` by that. -/
def packRounded? (rounded : Nat) (e : Int) : Option Nat :=
  if rounded = pow2 53 then pack? (pow2 52) (e + 1) else pack? rounded e

/-- The bits of the number nearest to a positive fraction, ties to even; none when that is beyond
the largest finite number. -/
def nearestBits? (num den : Nat) : Option Nat :=
  let e := exponentFor num den
  packRounded? (roundAt num den e) e

def nearest? (negative : Bool) (num den : Nat) : Option Float :=
  let bits := if num = 0 then some 0 else nearestBits? num den
  bits.map fun b => Float.ofBits (if negative then b + pow2 63 else b).toUInt64

def ofInt? (n : Int) : Option Float := nearest? (n < 0) n.natAbs 1

/-- The number nearest to `digits * 10 ^ exponent`, infinite when that is too large. Exponents far
outside the range of the numbers are not worked out. -/
def ofDecimal (negative : Bool) (digits : Nat) (width : Nat) (exponent : Int) : Float :=
  let signed (x : Float) := if negative then -x else x
  if digits = 0 then signed 0
  else if 400 < exponent + width then signed infinity
  else if exponent + width < -400 then signed 0
  else
    let fraction :=
      if 0 ≤ exponent then (digits * pow10 exponent.toNat, 1) else (digits, pow10 (-exponent).toNat)
    (nearest? negative fraction.1 fraction.2).getD (signed infinity)

end WorkflowCompiler.Decimal
