import LayeredConfig.Powers

/-!
# Finite binary64 numbers

A finite double is kept as a sign, a significand and the exponent of its unit, counted from the
smallest unit `2 ^ -1074`. All arithmetic is exact on natural numbers and rounds once, in
`Binary64.nearest`: to the nearest number, a half to the even significand, and `none` where the
result lies beyond the largest finite number.
-/

namespace LayeredConfig

/-- The finite number `(-1) ^ negative * significand * 2 ^ (exponent - 1074)`. `Binary64.nearest`
gives the form with `significand < 2 ^ 53`, and `2 ^ 52 ≤ significand` unless `exponent = 0`. -/
structure Binary64 where
  negative : Bool
  significand : Nat
  exponent : Nat
  deriving DecidableEq, Repr, Inhabited

/-- The integer nearest to `num / den`; a half goes to the even one. -/
def roundHalfEven (num den : Nat) : Nat :=
  let quotient := num / den
  let twice := 2 * (num % den)
  if twice < den then quotient
  else if den < twice then quotient + 1
  else quotient + quotient % 2

namespace Binary64

/-- The zero of the given sign. -/
def zero (negative : Bool) : Binary64 := ⟨negative, 0, 0⟩

/-- The magnitude as a count of the smallest unit: `|x| = x.units / 2 ^ 1074`. -/
def units (x : Binary64) : Nat := x.significand * twoTo x.exponent

/-- The number nearest to `num / den` with the given sign, `none` beyond the finite ones. The
exponent is the least one with which the significand fits in 53 bits. -/
def nearest (negative : Bool) (num den : Nat) : Option Binary64 :=
  let scaled := num * twoTo 1074
  let exponent := (scaled / den).log2 + 1 - 53
  let significand := roundHalfEven scaled (den * twoTo exponent)
  let carried :=
    if significand = twoTo 53 then (twoTo 52, exponent + 1) else (significand, exponent)
  if carried.2 ≤ 2045 then some ⟨negative, carried.1, carried.2⟩ else none

/-- The number nearest to a natural number. -/
def ofNat? (n : Nat) : Option Binary64 := nearest false n 1

/-- The rounded product. -/
def mul? (x y : Binary64) : Option Binary64 :=
  nearest (x.negative != y.negative) (x.units * y.units) (twoTo 2148)

/-- The rounded quotient by a number other than zero. -/
def div? (x y : Binary64) : Option Binary64 :=
  nearest (x.negative != y.negative) x.units y.units

/-- Count of decimal digits of a natural number; zero has one. -/
def decimalSize (n : Nat) : Nat := (Nat.toDigits 10 n).length

/-- The number nearest to `digits * 10 ^ exponent`. Exponents far outside the range are settled
by the size of the number, so that no power of ten larger than needed is ever formed. -/
def ofDecimal? (negative : Bool) (digits : Nat) (exponent : Int) : Option Binary64 :=
  let size := exponent + decimalSize digits
  if digits = 0 then some (zero negative)
  else if 400 < size then none
  else if size < -400 then some (zero negative)
  else if exponent < 0 then nearest negative digits (tenTo exponent.natAbs)
  else nearest negative (digits * tenTo exponent.natAbs) 1

/-- Equality of values: the two zeros are equal. -/
def sameValue (x y : Binary64) : Bool := (x.significand == 0 && y.significand == 0) || x == y

end Binary64

end LayeredConfig
