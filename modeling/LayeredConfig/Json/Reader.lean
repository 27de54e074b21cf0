import LayeredConfig.Json.Numeral

/-!
# Reading JSON text

Strict JSON: no comments, no trailing commas, control characters and lone surrogates refused in
strings. Containers nest at most `maximalDepth` deep, and the recursion runs on what is left of
that depth. A key that is written twice keeps its first place and takes its last value.
-/

namespace LayeredConfig

namespace Json

/-- How deep arrays and objects may nest. -/
def maximalDepth : Nat := 127

/-- The text behind leading blanks. -/
def skipBlanks (text : List Char) : List Char :=
  text.dropWhile fun c => c = ' ' || c = '\n' || c = '\t' || c = '\r'

/-- The failure of an escape whose four digits are not there. -/
def badHex (text : List Char) : Failure := ⟨utf8Size text - 4⟩

/-- The character that a backslash and a letter stand for. -/
def simpleEscape? : Char → Option Char
  | '"' => some '"'
  | '\\' => some '\\'
  | '/' => some '/'
  | 'b' => some '\x08'
  | 'f' => some '\x0c'
  | 'n' => some '\n'
  | 'r' => some '\r'
  | 't' => some '\t'
  | _ => none

/-- The rest of a string behind its opening quote, `done` holding its characters in reverse.
Behind an escaped leading surrogate (`leading`) only an escaped trailing one may follow. -/
def stringRest (leading : Option Nat) (done : List Char) : Reading String
  | [] => .error (.onNext [])
  | '\\' :: 'u' :: a :: b :: c :: d :: rest =>
    match natIn? 16 [a, b, c, d], leading with
    | none, _ => .error (badHex (a :: b :: c :: d :: rest))
    | some unit, none =>
      if 0xDC00 ≤ unit ∧ unit ≤ 0xDFFF then .error (.before rest)
      else if 0xD800 ≤ unit ∧ unit ≤ 0xDBFF then stringRest (some unit) done rest
      else stringRest none (Char.ofNat unit :: done) rest
    | some unit, some high =>
      if 0xDC00 ≤ unit ∧ unit ≤ 0xDFFF then
        let code := (high - 0xD800) * 0x400 + (unit - 0xDC00) + 0x10000
        stringRest none (Char.ofNat code :: done) rest
      else .error (.before rest)
  | '\\' :: 'u' :: rest => .error (badHex rest)
  | '\\' :: [] => .error (.onNext [])
  | '\\' :: c :: rest =>
    match simpleEscape? c, leading with
    | some escaped, none => stringRest none (escaped :: done) rest
    | _, _ => .error (.onNext (c :: rest))
  | c :: rest =>
    if leading.isSome then .error (.onNext (c :: rest))
    else if c = '"' then .ok (String.ofList done.reverse, rest)
    else if c.toNat < 0x20 then .error (.onNext (c :: rest))
    else stringRest none (c :: done) rest

/-- The rest of a word such as `true`, behind its first letter. -/
def word (value : Json) : List Char → Reading Json
  | [], text => .ok (value, text)
  | w :: ws, c :: rest => if w = c then word value ws rest else .error (.onNext (c :: rest))
  | _ :: _, [] => .error (.onNext [])

/-- A value that is not a container; a container is left to `container`. -/
def scalarOr (container : Reading Json) (text : List Char) :
    Except Failure (Json × List Char) :=
  match skipBlanks text with
  | 'n' :: rest => word .null "ull".toList rest
  | 't' :: rest => word (.bool true) "rue".toList rest
  | 'f' :: rest => word (.bool false) "alse".toList rest
  | '"' :: rest => (stringRest none [] rest).map fun (s, rest) => (.string s, rest)
  | '[' :: rest => container ('[' :: rest)
  | '\x7b' :: rest => container ('\x7b' :: rest)
  | c :: rest =>
    if c = '-' ∨ c.isDigit then (numeral (c :: rest)).map fun (n, rest) => (.number n, rest)
    else .error (.onNext (c :: rest))
  | [] => .error (.onNext [])

/-- The parts of a container behind one of its parts: its closing character, or a comma and
more parts. `fuel` bounds their number; the length of the text is enough. -/
def moreParts {α : Type} (close : Char) (part : Reading α) : (fuel : Nat) → Reading (List α)
  | 0, text => .error (.onNext text)
  | fuel + 1, text =>
    match skipBlanks text with
    | [] => .error (.onNext [])
    | c :: rest =>
      if c = close then .ok ([], rest)
      else if c = ',' then do
        let (first, rest) ← part rest
        let (others, rest) ← moreParts close part fuel rest
        pure (first :: others, rest)
      else .error (.onNext (c :: rest))

/-- The parts of a container behind its opening character. -/
def parts {α : Type} (close : Char) (part : Reading α) (text : List Char) :
    Except Failure (List α × List Char) :=
  match skipBlanks text with
  | [] => .error (.onNext [])
  | c :: rest =>
    if c = close then .ok ([], rest)
    else do
      let (first, rest) ← part (c :: rest)
      let (others, rest) ← moreParts close part (rest.length + 1) rest
      pure (first :: others, rest)

/-- A member of an object: a string, a colon and a value. -/
def member (value : Reading Json) (text : List Char) :
    Except Failure ((String × Json) × List Char) :=
  match skipBlanks text with
  | '"' :: rest => do
    let (key, rest) ← stringRest none [] rest
    match skipBlanks rest with
    | ':' :: rest => do
      let (v, rest) ← value rest
      pure ((key, v), rest)
    | rest => throw (.onNext rest)
  | rest => .error (.onNext rest)

/-- An array or an object whose parts are read by `value`. -/
def container (value : Reading Json) : Reading Json
  | '[' :: rest => (parts ']' value rest).map fun (items, rest) => (.array items, rest)
  | '\x7b' :: rest =>
    (parts '\x7d' (member value) rest).map fun (entries, rest) =>
      (.object (Members.ofList entries), rest)
  | text => .error (.onNext text)

/-- A value that nests at most `levels` deep. -/
def value : (levels : Nat) → Reading Json
  | 0, text => scalarOr (fun opened => .error (.onNext opened)) text
  | levels + 1, text => scalarOr (container (value levels)) text

/-- Reads a text that holds one value and nothing behind it. -/
def parse (text : String) : Except Failure Json := do
  let (v, rest) ← value maximalDepth text.toList
  match skipBlanks rest with
  | [] => pure v
  | rest => throw (.onNext rest)

end Json

end LayeredConfig
