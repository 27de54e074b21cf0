import LayeredConfig.Json.Basic

/-!
# Values with sorted keys

Some formats keep no order of keys. Their values come out with the members of every object in
the order of their keys, which is the order of code points.
-/

namespace LayeredConfig

namespace Json

/-- Members in ascending order of keys. -/
def sortMembers (members : List (String × Json)) : List (String × Json) :=
  members.mergeSort fun a b => decide (a.1 ≤ b.1)

mutual

/-- The value with the members of every object sorted. -/
def sorted : Json → Json
  | .array items => .array (sortedItems items)
  | .object members => .object (sortMembers (sortedMembers members))
  | v => v

/-- Elements with sorted members inside. -/
def sortedItems : List Json → List Json
  | [] => []
  | item :: rest => item.sorted :: sortedItems rest

/-- Members with sorted members inside. -/
def sortedMembers : List (String × Json) → List (String × Json)
  | [] => []
  | (key, value) :: rest => (key, value.sorted) :: sortedMembers rest

end

theorem sortMembers_perm (members : List (String × Json)) :
    (sortMembers members).Perm members := List.mergeSort_perm ..

/-- Sorting keeps keys distinct. -/
theorem distinct_sortMembers {members : List (String × Json)} (h : Members.Distinct members) :
    Members.Distinct (sortMembers members) :=
  ((sortMembers_perm members).map Prod.fst).nodup_iff.2 h

end Json

end LayeredConfig
