/-!
# Markers of directives

A key that starts with the marker is read as a directive. A key that is meant literally is
written with the marker doubled, and loses the first of the two when it is unescaped.
-/

namespace LayeredConfig

namespace Marker

/-- Whether a key starts with the marker. -/
def starts (marker key : String) : Bool := marker.toList.isPrefixOf key.toList

/-- The key behind the marker that it starts with. -/
def behind? (marker key : String) : Option String :=
  if starts marker key then some (String.ofList (key.toList.drop marker.toList.length)) else none

/-- The literal key that a key with a doubled marker stands for. The empty marker doubles
nothing. -/
def literal? (marker key : String) : Option String :=
  if marker = "" then none
  else (behind? marker key).filter (starts marker)

theorem starts_iff {marker key : String} :
    starts marker key = true ↔ ∃ rest : List Char, key.toList = marker.toList ++ rest := by
  rw [starts, List.isPrefixOf_iff_prefix]
  exact ⟨fun ⟨rest, h⟩ => ⟨rest, h.symm⟩, fun ⟨rest, h⟩ => ⟨rest, h.symm⟩⟩

/-- What is behind the marker makes up the key with it. -/
theorem behind?_eq_some_iff {marker key rest : String} :
    behind? marker key = some rest ↔ key = marker ++ rest := by
  constructor
  · intro h
    unfold behind? at h
    split at h
    · next hs =>
      obtain ⟨r, hr⟩ := starts_iff.1 hs
      simp only [hr, Option.some.injEq, List.drop_left] at h
      subst h
      rw [← String.toList_inj]
      simp [hr]
    · simp at h
  · rintro rfl
    have : starts marker (marker ++ rest) = true := starts_iff.2 ⟨rest.toList, by simp⟩
    rw [behind?, if_pos this]
    simp

/-- A literal key starts with the marker, and one more marker stood before it. -/
theorem literal?_eq_some_iff {marker key name : String} :
    literal? marker key = some name ↔
      marker ≠ "" ∧ key = marker ++ name ∧ starts marker name = true := by
  unfold literal?
  by_cases h : marker = ""
  · simp [h]
  · rw [if_neg h, Option.filter_eq_some_iff, behind?_eq_some_iff]
    simp [h]

end Marker

end LayeredConfig
