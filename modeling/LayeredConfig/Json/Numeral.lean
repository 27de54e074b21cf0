import LayeredConfig.Json.Basic
import LayeredConfig.Json.Failure
import LayeredConfig.Text.Digits

/-!
# Reading numerals

A numeral without fraction and exponent is an integer when it lies from `-2 ^ 63` to
`2 ^ 64 - 1`, and so is no numeral that is written `-0`. Every other numeral is a double: its
leading digits, as many as fit in 64 bits, become a double that is scaled once by a power of ten
(and through steps of `10 ^ 308` below the range of powers). Digits beyond those only move the
point. A numeral beyond the largest double is refused.
-/

namespace LayeredConfig

namespace Number

/-- Takes up digits while the significand stays below `2 ^ 64`; gives it and their count. -/
def absorb (significand : Nat) : List Char → Nat × Nat
  | [] => (significand, 0)
  | c :: rest =>
    let next := significand * 10 + digitValue c
    if next < twoTo 64 then
      let (result, count) := absorb next rest
      (result, count + 1)
    else (significand, 0)

/-- The double nearest to a power of ten up to `10 ^ 308`. -/
def powerOfTen (n : Nat) : Binary64 := (Binary64.ofNat? (tenTo n)).getD (.zero false)

/-- A double over `10 ^ n`; beyond `10 ^ 308` in steps, until nothing is left of it. -/
def scaleDown (x : Binary64) (n : Nat) : Binary64 :=
  if n ≤ 308 then (x.div? (powerOfTen n)).getD (.zero x.negative)
  else if x.significand = 0 then x
  else scaleDown ((x.div? (powerOfTen 308)).getD (.zero x.negative)) (n - 308)
termination_by n

/-- The double for `significand * 10 ^ exponent`, `none` beyond the finite ones. -/
def scaled? (significand : Nat) (exponent : Int) : Option Binary64 :=
  (Binary64.ofNat? significand).bind fun x =>
    if exponent < 0 then some (scaleDown x exponent.natAbs)
    else if exponent ≤ 308 then x.mul? (powerOfTen exponent.natAbs)
    else if significand = 0 then some x
    else none

/-- The parts of a numeral behind its sign. -/
structure Numeral where
  negative : Bool
  whole : List Char
  fraction : List Char
  /-- The exponent as written, `none` where there is none. -/
  exponent : Option Int

/-- The significand and the exponent of ten that a numeral's digits come to. -/
def Numeral.parts (n : Numeral) : Nat × Int :=
  let (whole, taken) := absorb 0 n.whole
  let (significand, moved) := absorb whole n.fraction
  (significand, (n.whole.length - taken : Nat) - (moved : Int) + n.exponent.getD 0)

/-- The number a numeral spells, `none` when it lies beyond the doubles. -/
def Numeral.value? (n : Numeral) : Option Number :=
  let (significand, exponent) := n.parts
  let integral := n.fraction.isEmpty && n.exponent.isNone && (absorb 0 n.whole).2 == n.whole.length
  if integral && !n.negative then
    some (.int significand)
  else if integral && significand ≠ 0 && significand ≤ twoTo 63 then
    some (.int (-(significand : Int)))
  else
    (scaled? significand exponent).map fun x => .double { x with negative := n.negative }

end Number

namespace Json

/-- The exponent of a numeral, behind its `e`. One that leaves 32 bits settles the number by
itself: zero, or a refusal at the digit that went too far when the number is not zero and grows. -/
def exponent (isZero : Bool) (text : List Char) : Except Failure (Int × List Char) :=
  let (negative, text) := signed text
  match text with
  | c :: rest =>
    if c.isDigit then digits negative (digitValue c) rest else .error (.onNext text)
  | [] => .error (.onNext [])
where
  /-- The digits behind the first one. -/
  digits (negative : Bool) (value : Nat) : Reading Int
    | c :: rest =>
      if c.isDigit then
        let next := value * 10 + digitValue c
        if next < twoTo 31 then digits negative next rest
        else if !negative && !isZero then .error (.before rest)
        else .ok (withSign negative next, rest.dropWhile Char.isDigit)
      else .ok (withSign negative value, c :: rest)
    | [] => .ok (withSign negative value, [])
  /-- A number with its sign. -/
  withSign (negative : Bool) (n : Nat) : Int := if negative then -n else n

/-- A numeral, from its sign on. A leading zero stands alone before the point. -/
def numeral (text : List Char) : Except Failure (Number × List Char) := do
  let (negative, text) := match text with
    | '-' :: rest => (true, rest)
    | rest => (false, rest)
  let whole := text.takeWhile Char.isDigit
  let rest := text.dropWhile Char.isDigit
  if whole.isEmpty then throw (.onNext rest)
  if whole.head? = some '0' && whole.length > 1 then throw (.onNext (text.drop 1))
  let (fraction, rest) ← match rest with
    | '.' :: rest =>
      let fraction := rest.takeWhile Char.isDigit
      if fraction.isEmpty then throw (Failure.onNext rest)
      else pure (fraction, rest.dropWhile Char.isDigit)
    | _ => pure ([], rest)
  let isZero := (Number.Numeral.parts ⟨negative, whole, fraction, none⟩).1 == 0
  let (power, rest) ← match rest with
    | 'e' :: rest | 'E' :: rest =>
      let (power, rest) ← exponent isZero rest
      pure (some power, rest)
    | _ => pure (none, rest)
  match Number.Numeral.value? ⟨negative, whole, fraction, power⟩ with
  | some read => pure (read, rest)
  | none => throw (.before rest)

end Json

end LayeredConfig
