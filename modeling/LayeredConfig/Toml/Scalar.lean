import LayeredConfig.Json.Basic
import LayeredConfig.Text.Digits

/-!
# Bare values of TOML

Booleans, integers in four bases, floats, dates and times. A bare value is first cut out of the
text and then read as a whole. Numbers may hold underscores between digits. Integers reach from
`-2 ^ 63` to `2 ^ 64 - 1`; infinities and NaN have no JSON value and become `null`; a date or time
becomes an object of one member that holds its normal form.
-/

namespace LayeredConfig

namespace Toml

/-- The values of digits, with single underscores allowed between two of them. -/
def digitsIn? (base : Nat) : List Char → Option (List Nat)
  | [] => none
  | [c] => (digitIn? base c).map fun d => [d]
  | c :: '_' :: rest => do
    let d ← digitIn? base c
    let ds ← digitsIn? base rest
    some (d :: ds)
  | c :: rest => do
    let d ← digitIn? base c
    let ds ← digitsIn? base rest
    some (d :: ds)

/-- Digits of a decimal number before its point: no zero leads them unless it stands alone. -/
def wholeDigits? (text : List Char) : Option (List Nat) :=
  (digitsIn? 10 text).bind fun digits =>
    if digits.length > 1 ∧ digits.head? = some 0 then none else some digits

/-- An integer with its sign, when it has a JSON value. -/
def bounded? (negative : Bool) (n : Nat) : Option Json :=
  if negative then (if n ≤ twoTo 63 then some (Json.ofInt (-n)) else none)
  else if n < twoTo 64 then some (Json.ofInt n) else none

/-- An integer. Only decimal ones carry a sign. -/
def integer? (text : List Char) : Option Json :=
  match text with
  | '0' :: 'x' :: rest => (digitsIn? 16 rest).bind fun ds => bounded? false (numberIn 16 ds)
  | '0' :: 'o' :: rest => (digitsIn? 8 rest).bind fun ds => bounded? false (numberIn 8 ds)
  | '0' :: 'b' :: rest => (digitsIn? 2 rest).bind fun ds => bounded? false (numberIn 2 ds)
  | text =>
    let (negative, rest) := signed text
    (wholeDigits? rest).bind fun ds => bounded? negative (numberIn 10 ds)

/-- A float: digits with a fraction, an exponent or both, or one of the special values. One
beyond the doubles is refused. -/
def float? (text : List Char) : Option Json := do
  let (negative, rest) := signed text
  if rest = "inf".toList ∨ rest = "nan".toList then return .null
  let isMark (c : Char) : Bool := c = 'e' || c = 'E'
  let mantissa := rest.takeWhile (!isMark ·)
  let power := rest.dropWhile (!isMark ·)
  let whole ← wholeDigits? (mantissa.takeWhile (· ≠ '.'))
  let fraction ← match mantissa.dropWhile (· ≠ '.') with
    | [] => some []
    | _ :: digits => digitsIn? 10 digits
  let exponent : Int ← match power with
    | [] => some 0
    | _ :: digits =>
      let (down, digits) := signed digits
      (digitsIn? 10 digits).map fun ds => if down then -(numberIn 10 ds : Int) else numberIn 10 ds
  if fraction.isEmpty && power.isEmpty then none
  else
    let digits := numberIn 10 (whole ++ fraction)
    (Binary64.ofDecimal? negative digits (exponent - fraction.length)).map fun x =>
      .number (.double x)

/-! ### Dates and times -/

/-- Exactly `count` decimal digits, and what is behind them. -/
def fixedDigits? (count : Nat) (text : List Char) : Option (Nat × List Char) :=
  if (text.take count).length = count then
    (natIn? 10 (text.take count)).map fun n => (n, text.drop count)
  else none

/-- Days of a month in the Gregorian calendar. -/
def daysIn (year month : Nat) : Nat :=
  if month = 2 then
    if (year % 4 = 0 ∧ year % 100 ≠ 0) ∨ year % 400 = 0 then 29 else 28
  else if month = 4 ∨ month = 6 ∨ month = 9 ∨ month = 11 then 30
  else 31

/-- A number written with at least `width` digits. -/
def padded (width n : Nat) : String :=
  let digits := toString n
  String.ofList (List.replicate (width - digits.length) '0') ++ digits

/-- A date in its normal form, and what is behind it. -/
def date? (text : List Char) : Option (String × List Char) := do
  let (year, text) ← fixedDigits? 4 text
  let '-' :: text := text | none
  let (month, text) ← fixedDigits? 2 text
  let '-' :: text := text | none
  let (day, text) ← fixedDigits? 2 text
  if 1 ≤ month ∧ month ≤ 12 ∧ 1 ≤ day ∧ day ≤ daysIn year month then
    some (padded 4 year ++ "-" ++ padded 2 month ++ "-" ++ padded 2 day, text)
  else none

/-- A fraction of a second in its normal form: nine digits at most, without zeros at the end. -/
def fractionText (digits : List Char) : String :=
  let kept := ((digits.take 9).reverse.dropWhile (· = '0')).reverse
  if kept.isEmpty then "" else "." ++ String.ofList kept

/-- Seconds of a time of day in their normal form, with their fraction, and what is behind
them. A leap second counts. -/
def seconds? (text : List Char) : Option (String × List Char) := do
  let (second, text) ← fixedDigits? 2 text
  if second ≤ 60 then
    match text with
    | '.' :: text =>
      let digits := text.takeWhile Char.isDigit
      if digits.isEmpty then none
      else some (padded 2 second ++ fractionText digits, text.dropWhile Char.isDigit)
    | text => some (padded 2 second, text)
  else none

/-- A time of day in its normal form, and what is behind it. Seconds may be missing. -/
def time? (text : List Char) : Option (String × List Char) := do
  let (hour, text) ← fixedDigits? 2 text
  let ':' :: text := text | none
  let (minute, text) ← fixedDigits? 2 text
  let (second, text) ← match text with
    | ':' :: text => seconds? text
    | text => some (padded 2 0, text)
  if hour ≤ 23 ∧ minute ≤ 59 then
    some (padded 2 hour ++ ":" ++ padded 2 minute ++ ":" ++ second, text)
  else none

/-- An offset from universal time in its normal form, at the end of the text. -/
def offset? (text : List Char) : Option String :=
  match text with
  | [] => some ""
  | ['Z'] | ['z'] => some "Z"
  | c :: rest => do
    let down ← if c = '-' then some true else if c = '+' then some false else none
    let (hours, rest) ← fixedDigits? 2 rest
    let ':' :: rest := rest | none
    let (minutes, rest) ← fixedDigits? 2 rest
    if rest.isEmpty && hours ≤ 23 && minutes ≤ 59 then
      let sign := if down && hours + minutes ≠ 0 then "-" else "+"
      some (sign ++ padded 2 hours ++ ":" ++ padded 2 minutes)
    else none

/-- The key under which the normal form of a date or time is kept. -/
def datetimeKey : String := "$__toml_private_datetime"

/-- A date, a time of day, or both; only both may carry an offset. -/
def datetime? (text : List Char) : Option Json :=
  let normal : Option String :=
    match date? text with
    | some (date, []) => some date
    | some (date, c :: rest) =>
      if c = 'T' ∨ c = 't' ∨ c = ' ' then do
        let (time, rest) ← time? rest
        let offset ← offset? rest
        some (date ++ "T" ++ time ++ offset)
      else none
    | none =>
      match time? text with
      | some (time, []) => some time
      | _ => none
  normal.map fun normal => .object [(datetimeKey, .string normal)]

/-- A bare value that is read as a whole. -/
def scalar? (text : List Char) : Option Json :=
  if text = "true".toList then some (.bool true)
  else if text = "false".toList then some (.bool false)
  else ((integer? text).or (datetime? text)).or (float? text)

end Toml

end LayeredConfig
