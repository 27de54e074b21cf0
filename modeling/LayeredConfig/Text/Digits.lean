import LayeredConfig.Powers

/-!
# Digits

Reading numbers off decimal and hexadecimal digits, with what formats share around them: a sign
in front, a character given by its number.
-/

namespace LayeredConfig

/-- The value of a decimal digit. -/
def digitValue (c : Char) : Nat := c.toNat - '0'.toNat

/-- The value of a digit in a base up to sixteen; letters of either case count from ten. -/
def digitIn? (base : Nat) (c : Char) : Option Nat :=
  let value :=
    if c.isDigit then digitValue c
    else if 'a' ≤ c ∧ c ≤ 'f' then c.toNat - 'a'.toNat + 10
    else if 'A' ≤ c ∧ c ≤ 'F' then c.toNat - 'A'.toNat + 10
    else 16
  if value < base then some value else none

/-- The number that digit values spell in a base. -/
def numberIn (base : Nat) (digits : List Nat) : Nat := digits.foldl (fun n d => n * base + d) 0

/-- The number that a text of digits spells; there must be at least one, and nothing else. -/
def natIn? (base : Nat) (text : List Char) : Option Nat :=
  if text.isEmpty then none else (text.mapM (digitIn? base)).map (numberIn base)

/-- A sign, when there is one, and what is behind it; `true` stands for minus. -/
def signed : List Char → Bool × List Char
  | '-' :: rest => (true, rest)
  | '+' :: rest => (false, rest)
  | rest => (false, rest)

/-- An unsigned number of 64 bits in decimal digits, maybe with a plus sign. -/
def unsigned64? (text : List Char) : Option Nat :=
  match signed text with
  | (true, _) => none
  | (false, rest) => (natIn? 10 rest).filter (· < twoTo 64)

/-- A signed number of 64 bits in decimal digits. -/
def signed64? (text : List Char) : Option Int :=
  match signed text with
  | (true, rest) => ((natIn? 10 rest).filter (· ≤ twoTo 63)).map fun n => -n
  | (false, rest) => ((natIn? 10 rest).filter (· < twoTo 63)).map fun n => n

/-- The character whose number hexadecimal digits spell, if there is one. -/
def charOfHex? (digits : List Char) : Option Char :=
  ((natIn? 16 digits).filter fun n => n.isValidChar).map Char.ofNat

end LayeredConfig
