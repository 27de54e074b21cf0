import LayeredConfig.Decimal.Layout
import LayeredConfig.Json.Basic

/-!
# Writing JSON text

The written form is compact. Strings escape the quote, the backslash and the control characters
below the space, and nothing else; a double always shows that it is one.
-/

namespace LayeredConfig

/-- Doubles are written out from `1e-5` up to below `1e16` and always show a point or an
exponent; the sign of an exponent is always written. -/
def Number.layout : Decimal.Layout :=
  { lowest := -5, highest := 15, pointZero := true, plusSign := true }

/-- The text of a number. -/
def Number.render : Number → String
  | .int n => toString n
  | .double x => Number.layout.renderBinary64 x

namespace Json

/-- The hexadecimal digit, in lower case. -/
def hexDigit (n : Nat) : Char := "0123456789abcdef".toList.getD n '0'

/-- The characters written for one character of a string. -/
def escapeChar (c : Char) : List Char :=
  if c = '"' then ['\\', '"']
  else if c = '\\' then ['\\', '\\']
  else if c = '\x08' then ['\\', 'b']
  else if c = '\t' then ['\\', 't']
  else if c = '\n' then ['\\', 'n']
  else if c = '\x0c' then ['\\', 'f']
  else if c = '\r' then ['\\', 'r']
  else if c.toNat < 0x20 then
    ['\\', 'u', '0', '0', hexDigit (c.toNat / 16), hexDigit (c.toNat % 16)]
  else [c]

/-- The text of a string, in quotes. -/
def renderString (s : String) : String :=
  String.ofList ('"' :: s.toList.flatMap escapeChar ++ ['"'])

mutual

/-- The compact text of a value. -/
def render : Json → String
  | .null => "null"
  | .bool true => "true"
  | .bool false => "false"
  | .number n => n.render
  | .string s => renderString s
  | .array items => "[" ++ ",".intercalate (renderItems items) ++ "]"
  | .object members => "\x7b" ++ ",".intercalate (renderMembers members) ++ "\x7d"

/-- The texts of elements. -/
def renderItems : List Json → List String
  | [] => []
  | item :: rest => item.render :: renderItems rest

/-- The texts of members, each a key and a value around a colon. -/
def renderMembers : List (String × Json) → List String
  | [] => []
  | (key, value) :: rest => (renderString key ++ ":" ++ value.render) :: renderMembers rest

end

end Json

end LayeredConfig
