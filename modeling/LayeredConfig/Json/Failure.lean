/-!
# Where reading failed

A reader consumes text from the left, and a failure is noticed after some number of bytes. What
is kept is the number of bytes still unread at that moment, which each reading function knows
from its own argument; line and column follow from the whole text.
-/

namespace LayeredConfig

/-- Bytes in the UTF-8 form of some text. -/
def utf8Size (text : List Char) : Nat := text.foldl (fun size c => size + c.utf8Size) 0

namespace Json

/-- A failure to read a value, with the bytes still unread when it was noticed. -/
structure Failure where
  unread : Nat
  deriving DecidableEq, Repr

/-- A function that reads off the front of a text: it gives a value and the text behind it, or a
failure. -/
abbrev Reading (α : Type) : Type := List Char → Except Failure (α × List Char)

namespace Failure

/-- A failure noticed by looking at the next byte, or at the end of the text. -/
def onNext (rest : List Char) : Failure := ⟨utf8Size rest - 1⟩

/-- A failure noticed before looking any further. -/
def before (rest : List Char) : Failure := ⟨utf8Size rest⟩

/-- Line and column reached after the first `count` bytes of a text, from `line` and `column`.
Lines count from one; a column is the number of bytes consumed on its line. -/
def placeAfter (line column : Nat) : Nat → List Char → Nat × Nat
  | 0, _ | _, [] => (line, column)
  | count + 1, c :: rest =>
    if c = '\n' then placeAfter (line + 1) 0 count rest
    else if count + 1 ≤ c.utf8Size then (line, column + count + 1)
    else placeAfter line (column + c.utf8Size) (count + 1 - c.utf8Size) rest

/-- Line and column at which the failure was noticed in the whole `text`. -/
def place (failure : Failure) (text : String) : Nat × Nat :=
  placeAfter 1 0 (text.utf8ByteSize - failure.unread) text.toList

end Failure

end Json

end LayeredConfig
