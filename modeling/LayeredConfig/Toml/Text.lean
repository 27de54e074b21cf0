import LayeredConfig.Text.Digits

/-!
# Strings and keys of TOML

Four forms of strings (basic and literal, on one line or on several), and keys: bare, or quoted
like a string on one line. Every function gives what it read and the text behind it, or nothing.
-/

namespace LayeredConfig

namespace Toml

/-- The text behind blanks on one line. -/
def skipBlanks (text : List Char) : List Char := text.dropWhile fun c => c = ' ' || c = '\t'

/-- Whether a character may stand for itself in a comment or a string on one line. -/
def isPlain (c : Char) : Bool := c = '\t' || (0x20 ≤ c.toNat && c.toNat ≠ 0x7F)

/-- The text behind a line break, if it starts with one. -/
def newline? : List Char → Option (List Char)
  | '\n' :: rest => some rest
  | '\r' :: '\n' :: rest => some rest
  | _ => none

/-- The character that an escape stands for, behind its backslash, and the length of the escape. -/
def escape? (text : List Char) : Option (Char × Nat) :=
  match text with
  | 'b' :: _ => some ('\x08', 1)
  | 't' :: _ => some ('\t', 1)
  | 'n' :: _ => some ('\n', 1)
  | 'f' :: _ => some ('\x0c', 1)
  | 'r' :: _ => some ('\r', 1)
  | 'e' :: _ => some ('\x1b', 1)
  | '"' :: _ => some ('"', 1)
  | '\\' :: _ => some ('\\', 1)
  | 'x' :: rest => hex rest 2
  | 'u' :: rest => hex rest 4
  | 'U' :: rest => hex rest 8
  | _ => none
where
  /-- A number of exactly `count` digits. -/
  hex (rest : List Char) (count : Nat) : Option (Char × Nat) :=
    if (rest.take count).length = count then
      (charOfHex? (rest.take count)).map fun c => (c, count + 1)
    else none

/-- The text behind blanks and line breaks. -/
def skipBreaks : List Char → List Char
  | ' ' :: rest => skipBreaks rest
  | '\t' :: rest => skipBreaks rest
  | '\n' :: rest => skipBreaks rest
  | '\r' :: '\n' :: rest => skipBreaks rest
  | text => text

/-- The text behind a backslash at the end of a line: all blanks and line breaks up to the next
other character are skipped. Nothing if the line does not end there. -/
def continuation? (text : List Char) : Option (List Char) :=
  (newline? (skipBlanks text)).map skipBreaks

/-- A string in one pair of quotes, behind the opening one. `fuel` bounds its length. -/
def oneLine (quote : Char) (done : List Char) :
    (fuel : Nat) → List Char → Option (String × List Char)
  | fuel + 1, c :: rest =>
    if c = quote then some (String.ofList done.reverse, rest)
    else if c = '\\' && quote = '"' then
      (escape? rest).bind fun (escaped, length) =>
        oneLine quote (escaped :: done) fuel (rest.drop length)
    else if isPlain c then oneLine quote (c :: done) fuel rest
    else none
  | _, _ => none

/-- A string in three pairs of quotes, behind the opening ones and a line break there. Up to two
quotes may stand before the closing ones. `fuel` bounds its length. -/
def manyLines (quote : Char) (done : List Char) :
    (fuel : Nat) → List Char → Option (String × List Char)
  | fuel + 1, c :: rest =>
    if c = quote && (rest.take 2) == [quote, quote] then
      let behind := rest.drop 2
      let kept := (behind.take 2).takeWhile (· = quote)
      some (String.ofList (kept ++ done).reverse, behind.drop kept.length)
    else if c = '\\' && quote = '"' then
      match continuation? rest with
      | some rest => manyLines quote done fuel rest
      | none =>
        (escape? rest).bind fun (escaped, length) =>
          manyLines quote (escaped :: done) fuel (rest.drop length)
    else if c = '\r' then
      if rest.head? = some '\n' then manyLines quote (c :: done) fuel rest else none
    else if isPlain c || c = '\n' then manyLines quote (c :: done) fuel rest
    else none
  | _, _ => none

/-- A string of any form, from its opening quote on. -/
def string? (text : List Char) : Option (String × List Char) :=
  match text with
  | '"' :: '"' :: '"' :: rest =>
    manyLines '"' [] (rest.length + 1) ((newline? rest).getD rest)
  | '\'' :: '\'' :: '\'' :: rest =>
    manyLines '\'' [] (rest.length + 1) ((newline? rest).getD rest)
  | '"' :: rest => oneLine '"' [] (rest.length + 1) rest
  | '\'' :: rest => oneLine '\'' [] (rest.length + 1) rest
  | _ => none

/-- Whether a bare key may hold this character. -/
def isKeyChar (c : Char) : Bool := c.isAlphanum || c = '_' || c = '-'

/-- One key: a string on one line, or a bare key. -/
def simpleKey? (text : List Char) : Option (String × List Char) :=
  match text with
  | '"' :: rest => oneLine '"' [] (rest.length + 1) rest
  | '\'' :: rest => oneLine '\'' [] (rest.length + 1) rest
  | text =>
    let name := text.takeWhile isKeyChar
    if name.isEmpty then none else some (String.ofList name, text.dropWhile isKeyChar)

/-- How many keys one dotted key may join, and how deep arrays and inline tables may nest. -/
def maximalDepth : Nat := 80

/-- At most `count` keys joined by points, with blanks around each. -/
def keys? : (count : Nat) → List Char → Option (List String × List Char)
  | 0, _ => none
  | count + 1, text => do
    let (name, rest) ← simpleKey? (skipBlanks text)
    match skipBlanks rest with
    | '.' :: rest =>
      let (names, rest) ← keys? count rest
      some (name :: names, rest)
    | rest => some ([name], rest)

/-- A dotted key. -/
def dottedKey? (text : List Char) : Option (List String × List Char) := keys? maximalDepth text

end Toml

end LayeredConfig
