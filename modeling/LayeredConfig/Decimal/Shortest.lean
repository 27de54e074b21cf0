import LayeredConfig.Binary64

/-!
# Shortest digits

The decimal digits written for a binary64 number are the fewest that read back to it. The reals
that round to the number form an interval (its ends belong to it when the significand is even);
on the grid of numbers with `k` significant digits only the two neighbours of the number can lie
in that interval nearest to it, so trying them for `k = 1, 2, …, 17` finds the shortest form, and
of two hits on one grid the nearer one.
-/

namespace LayeredConfig

/-- The decimal number `digits * 10 ^ exponent`. -/
structure Decimal where
  digits : Nat
  exponent : Int
  deriving DecidableEq, Repr

namespace Decimal

/-- The reals that round to a number, as fractions over one denominator. -/
structure Interval where
  low : Nat
  middle : Nat
  high : Nat
  denominator : Nat
  closed : Bool

/-- The interval around the magnitude of `x`: half a unit to either side, and a quarter below
where the unit changes. -/
def Interval.around (x : Binary64) : Interval :=
  let unit := twoTo x.exponent
  let below := if x.significand = twoTo 52 ∧ 0 < x.exponent then unit else 2 * unit
  { low := 4 * x.units - below
    middle := 4 * x.units
    high := 4 * x.units + 2 * unit
    denominator := 4 * twoTo 1074
    closed := x.significand % 2 == 0 }

/-- Whether `num / den` lies in the interval. -/
def Interval.contains (i : Interval) (num den : Nat) : Bool :=
  let value := num * i.denominator
  let low := i.low * den
  let high := i.high * den
  if i.closed then decide (low ≤ value ∧ value ≤ high) else decide (low < value ∧ value < high)

/-- The position of the leading digit: the `e` with `10 ^ e ≤ |x| < 10 ^ (e + 1)`, `x ≠ 0`. The
smallest number is above `10 ^ -324`, so scaling by `10 ^ 400` leaves an integer part. -/
def leadingExponent (x : Binary64) : Int :=
  (Binary64.decimalSize (x.units * tenTo 400 / twoTo 1074) : Int) - 401

/-- Integers `n` for which `n * 10 ^ exponent` is a grid neighbour of the interval's middle that
lies inside, the nearer first. -/
def gridHits (i : Interval) (exponent : Int) : List Nat :=
  let num := if exponent < 0 then tenTo exponent.natAbs else 1
  let den := if exponent < 0 then 1 else tenTo exponent.natAbs
  let scaled := i.middle * num
  let unit := i.denominator * den
  let lower := scaled / unit
  let twice := 2 * (scaled % unit)
  let nearerFirst :=
    if twice < unit then [lower, lower + 1]
    else if unit < twice then [lower + 1, lower]
    else if lower % 2 = 0 then [lower, lower + 1] else [lower + 1, lower]
  nearerFirst.filter fun n => i.contains (n * den) num

/-- Tries the grids of `count`, `count + 1`, … digits, `tries` of them. -/
def firstHit (i : Interval) (leading : Int) (count : Nat) : Nat → Option Decimal
  | 0 => none
  | tries + 1 =>
    let exponent := leading - count + 1
    match gridHits i exponent with
    | n :: _ => some (if n = tenTo count then ⟨1, exponent + count⟩ else ⟨n, exponent⟩)
    | [] => firstHit i leading (count + 1) tries

/-- The shortest decimal that reads back to the magnitude of `x`; of those the nearest to it. -/
def shortest (x : Binary64) : Decimal :=
  if x.significand = 0 then ⟨0, 0⟩
  else (firstHit (Interval.around x) (leadingExponent x) 1 17).getD ⟨0, 0⟩

end Decimal

end LayeredConfig
