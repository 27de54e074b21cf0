import LayeredConfig.Decimal.Shortest

/-!
# Layout of decimal numbers

How the digits of a number are set: which leading positions are written out and which go to an
exponent, and how the exponent is spelled. A layout is a record, so a document format states its
own in one line.
-/

namespace LayeredConfig

namespace Decimal

/-- Numbers whose leading digit stands at a position from `lowest` to `highest` are written out
with a decimal point; all others carry an exponent, whose sign is written when it is negative
or `plusSign` is set. With `pointZero`, a written-out integer ends in `.0`. -/
structure Layout where
  lowest : Int
  highest : Int
  pointZero : Bool
  plusSign : Bool

/-- Zeros in a row. -/
def zeros (n : Nat) : String := String.ofList (List.replicate n '0')

namespace Layout

/-- Digits with the decimal point after the first `whole` of them, zeros filling up both sides. -/
def written (layout : Layout) (digits : List Char) (whole : Int) : String :=
  if whole ≤ 0 then
    "0." ++ zeros whole.natAbs ++ String.ofList digits
  else if (digits.length : Int) ≤ whole then
    String.ofList digits ++ zeros (whole.natAbs - digits.length)
      ++ (if layout.pointZero then ".0" else "")
  else
    String.ofList (digits.take whole.natAbs) ++ "." ++ String.ofList (digits.drop whole.natAbs)

/-- Digits with the point after the first one, and the exponent that makes up for it. -/
def scientific (layout : Layout) (digits : List Char) (leading : Int) : String :=
  let fraction := match digits.drop 1 with
    | [] => ""
    | rest => "." ++ String.ofList rest
  let sign := if leading < 0 then "-" else if layout.plusSign then "+" else ""
  String.ofList (digits.take 1) ++ fraction ++ "e" ++ sign ++ toString leading.natAbs

/-- The text of a decimal magnitude. -/
def render (layout : Layout) (d : Decimal) : String :=
  let digits := Nat.toDigits 10 d.digits
  let leading := d.exponent + digits.length - 1
  if layout.lowest ≤ leading ∧ leading ≤ layout.highest then
    layout.written digits (leading + 1)
  else
    layout.scientific digits leading

/-- The text of a binary64 number: its shortest digits, after a minus sign where it has one. -/
def renderBinary64 (layout : Layout) (x : Binary64) : String :=
  (if x.negative then "-" else "") ++ layout.render (shortest x)

end Layout

end Decimal

end LayeredConfig
