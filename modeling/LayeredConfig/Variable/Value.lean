import LayeredConfig.Json.Basic
import LayeredConfig.Text.Blank
import LayeredConfig.Text.Digits
import LayeredConfig.Text.Utf8

/-!
# Values in variables

The text of an environment variable may spell a value: `true` and `false`, tables
`{key = value, …}` and arrays `[value, …]`, which both allow a comma at their end, strings in
double quotes, a single character in single quotes, and bare words. A bare word reaches up to a
comma or a bracket; it is a double when it has a point and reads as one, or else an integer of 64
bits, or else a string. A text that is no value stands for itself.
-/

namespace LayeredConfig

namespace Variable

/-- The text behind leading blanks. -/
def skipBlanks (text : List Char) : List Char := text.dropWhile isAsciiBlank

/-- What a reading function gives: a value and the text behind it, or nothing. -/
abbrev Step (α : Type) : Type := List Char → Option (α × List Char)

/-- Whether a bare word may go on with this character. -/
def isWordChar (c : Char) : Bool :=
  !(c = ',' || c = '\x7b' || c = '\x7d' || c = '[' || c = ']')

/-- Whether a bare key may hold this character. -/
def isKeyChar (c : Char) : Bool :=
  c.isAlphanum || c = '_' || c = '-'

/-- The exponent of a decimal, behind its mark; zero when there is none. -/
def exponent? : List Char → Option Int
  | [] => some 0
  | c :: rest =>
    if c = 'e' ∨ c = 'E' then
      let (negative, rest) := signed rest
      (natIn? 10 rest).map fun n => if negative then -n else n
    else none

/-- A decimal with a point, with digits on at least one side of it, as a double; one beyond the
doubles is no number and becomes `null`. -/
def decimal? (text : List Char) : Option Json :=
  let (negative, rest) := signed text
  let whole := rest.takeWhile Char.isDigit
  match rest.dropWhile Char.isDigit with
  | '.' :: rest =>
    let fraction := rest.takeWhile Char.isDigit
    (exponent? (rest.dropWhile Char.isDigit)).bind fun exponent =>
      (natIn? 10 (whole ++ fraction)).map fun digits =>
        Json.ofBinary64? (Binary64.ofDecimal? negative digits (exponent - fraction.length))
  | _ => none

/-- The value of a bare word. -/
def wordValue (word : List Char) : Json :=
  match decimal? word with
  | some v => v
  | none =>
    match unsigned64? word, signed64? word with
    | some n, _ => Json.ofInt n
    | none, some n => Json.ofInt n
    | none, none => .string (String.ofList word)

/-- Whether a character stands for itself in a string: neither the quote nor the backslash nor a
control character other than the tab. -/
def isPlain (c : Char) : Bool :=
  c = '\t' || (0x20 ≤ c.toNat && c.toNat ≠ 0x7F && c ≠ '"' && c ≠ '\\')

/-- The rest of a string, with `done` before it in reverse. -/
def quotedRest (done : List Char) : Step String
  | [] => none
  | '"' :: rest => some (String.ofList done.reverse, rest)
  | '\\' :: 'u' :: a :: b :: c :: d :: rest =>
    match charOfHex? [a, b, c, d] with
    | some escaped => quotedRest (escaped :: done) rest
    | none => none
  | '\\' :: 'U' :: a :: b :: c :: d :: e :: f :: g :: h :: rest =>
    match charOfHex? [a, b, c, d, e, f, g, h] with
    | some escaped => quotedRest (escaped :: done) rest
    | none => none
  | '\\' :: '"' :: rest => quotedRest ('"' :: done) rest
  | '\\' :: '\\' :: rest => quotedRest ('\\' :: done) rest
  | '\\' :: 'b' :: rest => quotedRest ('\x08' :: done) rest
  | '\\' :: 'f' :: rest => quotedRest ('\x0c' :: done) rest
  | '\\' :: 'n' :: rest => quotedRest ('\n' :: done) rest
  | '\\' :: 'r' :: rest => quotedRest ('\r' :: done) rest
  | '\\' :: 't' :: rest => quotedRest ('\t' :: done) rest
  | '\\' :: _ => none
  | c :: rest => if isPlain c then quotedRest (c :: done) rest else none

/-- A string behind its opening quote. Of the text before the first escape only as many bytes are
kept as it has characters, which is all of it if they are ASCII. -/
def quoted (text : List Char) : Option (String × List Char) :=
  let plain := text.takeWhile isPlain
  match text.dropWhile isPlain with
  | '"' :: rest => some (String.ofList plain, rest)
  | rest => quotedRest (Utf8.leading plain.length plain).reverse rest

/-- The parts of a table or an array, behind its opening bracket or behind a comma. The closing
bracket is looked for before every part, so a comma may stand before it. `fuel` bounds the number
of parts; the length of the text is enough. -/
def parts {α : Type} (close : Char) (part : Step α) : (fuel : Nat) → Step (List α)
  | 0, _ => none
  | fuel + 1, text =>
    if text.head? = some close then some ([], text.drop 1)
    else do
      let (first, rest) ← part text
      match rest with
      | ',' :: rest =>
        let (others, rest) ← parts close part fuel rest
        some (first :: others, rest)
      | c :: rest => if c = close then some ([first], rest) else none
      | [] => none

/-- A key: a quoted string, or a run of letters, digits, `_` and `-`. -/
def key (text : List Char) : Option (String × List Char) :=
  match text with
  | '"' :: rest => quoted rest
  | text =>
    let name := text.takeWhile isKeyChar
    if name.isEmpty then none else some (String.ofList name, text.dropWhile isKeyChar)

/-- An entry of a table: a key among blanks, an equals sign and a value. -/
def entry (value : Step Json) (text : List Char) : Option ((String × Json) × List Char) := do
  let (name, rest) ← key (skipBlanks text)
  match skipBlanks rest with
  | '=' :: rest =>
    let (v, rest) ← value rest
    some ((name, v), rest)
  | _ => none

/-- A value without the blanks around it. `levels` bounds the nesting. -/
def bare : (levels : Nat) → List Char → Option (Json × List Char)
  | 0, _ => none
  | levels + 1, text =>
    let value (text : List Char) : Option (Json × List Char) :=
      (bare levels (skipBlanks text)).map fun (v, rest) => (v, skipBlanks rest)
    match text with
    | 't' :: 'r' :: 'u' :: 'e' :: rest => some (.bool true, rest)
    | 'f' :: 'a' :: 'l' :: 's' :: 'e' :: rest => some (.bool false, rest)
    | '\x7b' :: rest =>
      (parts '\x7d' (entry value) (rest.length + 1) rest).map fun (entries, rest) =>
        (.object (Members.ofList entries), rest)
    | '[' :: rest =>
      (parts ']' value (rest.length + 1) rest).map fun (items, rest) => (.array items, rest)
    | '"' :: rest => (quoted rest).map fun (s, rest) => (.string s, rest)
    | '\'' :: c :: '\'' :: rest => some (.string (String.singleton c), rest)
    | '\'' :: _ => none
    | text =>
      some (wordValue (trimChars (text.takeWhile isWordChar)), text.dropWhile isWordChar)

/-- The value that the text of a variable stands for. -/
def value (text : String) : Json :=
  let chars := text.toList
  match bare (chars.length + 1) (skipBlanks chars) with
  | some (v, rest) => if (skipBlanks rest).isEmpty then v else .string text
  | none => .string text

end Variable

end LayeredConfig
