import LayeredConfig.Toml.Scalar
import LayeredConfig.Toml.Table
import LayeredConfig.Toml.Text

/-!
# Reading TOML text

A document is a sequence of statements, one a line: a key with its value, the header of a table,
or the header of an element of an array of tables. Its value is an object with the keys of every
table sorted. Between the parts of an array or an inline table, and around the equals sign in an
inline table, comments and line breaks stand like blanks; within a dotted key they may not.
-/

namespace LayeredConfig

namespace Toml

/-- The text behind a comment, which ends before a line break; nothing if the comment holds a
control character. A text that starts with no comment is left alone. -/
def skipComment? : List Char → Option (List Char)
  | '#' :: rest =>
    let behind := rest.dropWhile isPlain
    if behind.isEmpty || (newline? behind).isSome then some behind else none
  | text => some text

/-- The text behind blanks, comments and line breaks. `fuel` bounds the number of lines. -/
def skipLines? : (fuel : Nat) → List Char → Option (List Char)
  | 0, _ => none
  | fuel + 1, text => do
    let text ← skipComment? (skipBlanks text)
    match newline? text with
    | some rest => skipLines? fuel rest
    | none => some text

/-- The text behind blanks, comments and line breaks. -/
def skipSpace? (text : List Char) : Option (List Char) := skipLines? (text.length + 1) text

/-- The parts of an array or an inline table, behind its opening bracket or behind a comma; a
comma may stand before the closing bracket. `fuel` bounds the number of parts. -/
def parts? {α : Type} (close : Char) (part : List Char → Option (α × List Char)) :
    (fuel : Nat) → List Char → Option (List α × List Char)
  | 0, _ => none
  | fuel + 1, text => do
    let text ← skipSpace? text
    if text.head? = some close then some ([], text.drop 1)
    else
      let (first, rest) ← part text
      let rest ← skipSpace? rest
      match rest with
      | ',' :: rest =>
        let (others, rest) ← parts? close part fuel rest
        some (first :: others, rest)
      | c :: rest => if c = close then some ([first], rest) else none
      | [] => none

/-- A key, an equals sign and a value, with the space that `skip` passes over around the sign. -/
def assignment? (skip : List Char → Option (List Char))
    (value : List Char → Option (Json × List Char)) (text : List Char) :
    Option ((List String × Json) × List Char) := do
  let (keys, rest) ← dottedKey? text
  let '=' :: rest ← skip rest | none
  let (v, rest) ← value (← skip rest)
  some ((keys, v), rest)

/-- The object of an inline table. -/
def inlineTable? (assignments : List (List String × Json)) : Option Json := do
  let entries ← assignments.foldlM (fun entries (keys, v) =>
    keys.getLast?.bind fun key => assign keys.dropLast key v .header entries) []
  some (.object (entriesToJson entries))

/-- Whether a bare value may hold this character. -/
def isScalarChar (c : Char) : Bool :=
  !(c = ' ' || c = '\t' || c = '\n' || c = '\r' || c = ',' || c = ']' || c = '\x7d' || c = '#')

/-- A bare value cut out of the text. A blank may stand between a date and a time. -/
def cutScalar (text : List Char) : List Char × List Char :=
  let first := text.takeWhile isScalarChar
  match text.dropWhile isScalarChar with
  | ' ' :: c :: rest =>
    if c.isDigit && (date? first).map Prod.snd == some [] then
      (first ++ ' ' :: (c :: rest).takeWhile isScalarChar, (c :: rest).dropWhile isScalarChar)
    else (first, ' ' :: c :: rest)
  | rest => (first, rest)

/-- A value whose arrays and inline tables nest at most `levels` deep. -/
def value? : (levels : Nat) → List Char → Option (Json × List Char)
  | levels, '[' :: rest =>
    match levels with
    | 0 => none
    | levels + 1 =>
      (parts? ']' (value? levels) (rest.length + 1) rest).map fun (items, rest) =>
        (.array items, rest)
  | levels, '\x7b' :: rest =>
    match levels with
    | 0 => none
    | levels + 1 => do
      let (assignments, rest) ←
        parts? '\x7d' (assignment? skipSpace? (value? levels)) (rest.length + 1) rest
      (inlineTable? assignments).map fun v => (v, rest)
  | _, text =>
    if text.head? = some '"' ∨ text.head? = some '\'' then
      (string? text).map fun (s, rest) => (.string s, rest)
    else
      let (scalar, rest) := cutScalar text
      (scalar? scalar).map fun v => (v, rest)

/-- A document being read: its entries, and the header that keys belong to. -/
structure Document where
  entries : Entries
  header : List String

/-- Follows one statement, from its first character on. -/
def statement? (document : Document) (text : List Char) : Option (Document × List Char) :=
  match text with
  | '[' :: '[' :: rest => do
    let (keys, rest) ← dottedKey? rest
    let ']' :: ']' :: rest := rest | none
    let key ← keys.getLast?
    let entries ← openElement keys.dropLast key document.entries
    some (⟨entries, keys⟩, rest)
  | '[' :: rest => do
    let (keys, rest) ← dottedKey? rest
    let ']' :: rest := rest | none
    let key ← keys.getLast?
    let entries ← openTable keys.dropLast key document.entries
    some (⟨entries, keys⟩, rest)
  | text => do
    let ((keys, v), rest) ← assignment? (some ∘ skipBlanks) (value? maximalDepth) text
    let key ← keys.getLast?
    let entries ←
      within false (assign keys.dropLast key v) document.header .header document.entries
    some ({ document with entries := entries }, rest)

/-- Follows all statements. `fuel` bounds their number. -/
def statements? : (fuel : Nat) → Document → List Char → Option Document
  | 0, _, _ => none
  | fuel + 1, document, text => do
    let text ← skipSpace? text
    if text.isEmpty then some document
    else
      let (document, rest) ← statement? document text
      let rest ← skipComment? (skipBlanks rest)
      match newline? rest with
      | some rest => statements? fuel document rest
      | none => if rest.isEmpty then some document else none

/-- Reads a document. A byte order mark may stand before it. -/
def parse (text : String) : Option Json :=
  let chars := match text.toList with
    | '\uFEFF' :: rest => rest
    | chars => chars
  (statements? (chars.length + 1) ⟨[], []⟩ chars).map fun document =>
    (Json.object (entriesToJson document.entries)).sorted

end Toml

end LayeredConfig
