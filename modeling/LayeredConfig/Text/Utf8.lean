/-!
# Text from bytes

Bytes are cut from the left into well-formed UTF-8 sequences and, where there is none, into
ill-formed pieces: the longest beginnings of a sequence that cannot be completed, or single bytes.
Strict decoding refuses ill-formed pieces, lenient decoding puts the replacement character for
each. A text may also be cut to a number of bytes.
-/

namespace LayeredConfig

/-- Contents of a file or a variable. -/
abbrev Bytes := List UInt8

namespace Utf8

/-- What follows a lead byte: how many continuation bytes, the bits the lead contributes, and
the range of the first continuation byte, which keeps overlong forms, surrogates and numbers
beyond the last character out. -/
structure Lead where
  more : Nat
  bits : Nat
  low : Nat
  high : Nat

/-- The role of a byte that starts a sequence, `none` if no sequence starts with it. -/
def lead? (b : Nat) : Option Lead :=
  if b < 0x80 then some ⟨0, b, 0x80, 0xBF⟩
  else if 0xC2 ≤ b ∧ b ≤ 0xDF then some ⟨1, b - 0xC0, 0x80, 0xBF⟩
  else if b = 0xE0 then some ⟨2, 0, 0xA0, 0xBF⟩
  else if b = 0xED then some ⟨2, 0xD, 0x80, 0x9F⟩
  else if 0xE1 ≤ b ∧ b ≤ 0xEF then some ⟨2, b - 0xE0, 0x80, 0xBF⟩
  else if b = 0xF0 then some ⟨3, 0, 0x90, 0xBF⟩
  else if 0xF1 ≤ b ∧ b ≤ 0xF3 then some ⟨3, b - 0xF0, 0x80, 0xBF⟩
  else if b = 0xF4 then some ⟨3, 4, 0x80, 0x8F⟩
  else none

/-- Takes `more` continuation bytes, the first of them between `low` and `high`. Stops at a byte
that does not continue the sequence. -/
def continued (bits low high : Nat) : (more : Nat) → Bytes → Option Nat × Bytes
  | 0, rest => (some bits, rest)
  | _ + 1, [] => (none, [])
  | more + 1, b :: rest =>
    if low ≤ b.toNat ∧ b.toNat ≤ high then
      continued (bits * 64 + (b.toNat - 0x80)) 0x80 0xBF more rest
    else (none, b :: rest)

theorem length_continued_le (bits low high more : Nat) (bytes : Bytes) :
    (continued bits low high more bytes).2.length ≤ bytes.length := by
  induction more generalizing bits low high bytes with
  | zero => simp [continued]
  | succ more ih =>
      cases bytes with
      | nil => simp [continued]
      | cons b rest =>
          rw [continued]
          split
          · exact Nat.le_succ_of_le (ih ..)
          · exact Nat.le_refl _

/-- The pieces of a byte string: characters, and `none` for each ill-formed piece. -/
def pieces : Bytes → List (Option Char)
  | [] => []
  | b :: rest =>
    match lead? b.toNat with
    | none => none :: pieces rest
    | some lead =>
      let next := continued lead.bits lead.low lead.high lead.more rest
      next.1.map Char.ofNat :: pieces next.2
termination_by bytes => bytes.length
decreasing_by
  · simp
  · exact Nat.lt_succ_of_le (length_continued_le ..)

/-- The text of well-formed bytes. -/
def decode? (bytes : Bytes) : Option String := ((pieces bytes).mapM id).map String.ofList

/-- The text of any bytes, each ill-formed piece replaced. -/
def decodeLossy (bytes : Bytes) : String :=
  String.ofList ((pieces bytes).map fun c => c.getD '\uFFFD')

/-- The bytes of a text. -/
def encode (text : String) : Bytes := text.toUTF8.toList

/-- The characters at the beginning of a text that fit into `count` bytes together. -/
def leading : (count : Nat) → List Char → List Char
  | _, [] => []
  | count, c :: rest =>
    if c.utf8Size ≤ count then c :: leading (count - c.utf8Size) rest else []

end Utf8

end LayeredConfig
