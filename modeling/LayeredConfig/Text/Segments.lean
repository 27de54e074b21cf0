/-!
# Segments of text

Text cut at a separator, and pairs of characters replaced. Cutting gives one segment more than
there are separators, so the empty text is one empty segment.
-/

namespace LayeredConfig

/-- The segments of a text between separators. -/
def segments (separator : Char) : List Char → List (List Char)
  | [] => [[]]
  | c :: rest =>
    if c = separator then [] :: segments separator rest
    else
      match segments separator rest with
      | [] => [[c]]
      | first :: others => (c :: first) :: others

/-- A text with every pair `a b`, taken from the left, replaced by `c`. -/
def replacePair (a b c : Char) : List Char → List Char
  | [] => []
  | [x] => [x]
  | x :: y :: rest =>
    if x = a ∧ y = b then c :: replacePair a b c rest else x :: replacePair a b c (y :: rest)

@[simp] theorem segments_nil (separator : Char) : segments separator [] = [[]] := rfl

theorem segments_separator (separator : Char) (rest : List Char) :
    segments separator (separator :: rest) = [] :: segments separator rest := by simp [segments]

/-- A text without separators is its own only segment. -/
theorem segments_of_not_mem {separator : Char} {text : List Char} (h : separator ∉ text) :
    segments separator text = [text] := by
  induction text with
  | nil => rfl
  | cons c rest ih =>
      simp only [List.mem_cons, not_or] at h
      rw [segments, if_neg (Ne.symm h.1), ih h.2]

/-- The separator behind a text without any ends its first segment. -/
theorem segments_append_separator {separator : Char} {text : List Char} (h : separator ∉ text)
    (rest : List Char) :
    segments separator (text ++ separator :: rest) = text :: segments separator rest := by
  induction text with
  | nil => exact segments_separator ..
  | cons c text ih =>
      simp only [List.mem_cons, not_or] at h
      rw [List.cons_append, segments, if_neg (Ne.symm h.1), ih h.2]

end LayeredConfig
