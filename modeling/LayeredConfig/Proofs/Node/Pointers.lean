import LayeredConfig.Proofs.Node.Furthest
import LayeredConfig.Proofs.Node.Preorder

/-!
# Pointers to the nodes of a tree

The path under which the traversal meets a node, written as segments, leads back to it, and so does
the pointer with these segments. A pointer is cut at slashes before its escapes are undone, and `~1`
is undone before `~0`; a segment in which first every `~` was written `~0` and every `/` was written
`~1` is read back from it whatever it holds (`unescapeSegment_escaped`, `pointerSegments_pointer`).
Indices are read back from their decimal digits (`unsigned64?_toString`).
-/

namespace LayeredConfig

/-! ### Indices -/

theorem digitIn?_of_isDigit {c : Char} (h : c.isDigit = true) :
    digitIn? 10 c = some (digitValue c) := by
  have hvalue : digitValue c < 10 := by
    simp only [Char.isDigit, Bool.and_eq_true, decide_eq_true_eq] at h
    have hle := UInt32.le_iff_toNat_le.1 h.2
    change c.toNat ≤ 57 at hle
    change c.toNat - 48 < 10
    omega
  rw [digitIn?, if_pos h, if_pos hvalue]

theorem mapM_digitIn? {text : List Char} (h : ∀ c ∈ text, c.isDigit = true) :
    text.mapM (digitIn? 10) = some (text.map digitValue) := by
  induction text with
  | nil => rfl
  | cons c rest ih =>
      obtain ⟨hc, hrest⟩ := List.forall_mem_cons.1 h
      rw [List.mapM_cons, digitIn?_of_isDigit hc, ih hrest]
      rfl

theorem numberIn_map_digitValue (text : List Char) :
    numberIn 10 (text.map digitValue) = Nat.ofDigitChars 10 text 0 := by
  rw [numberIn, List.foldl_map, Nat.ofDigitChars]
  congr 1
  funext n c
  rw [Nat.mul_comm, digitValue]

theorem signed_cons_of_isDigit {c : Char} (h : c.isDigit = true) (rest : List Char) :
    signed (c :: rest) = (false, c :: rest) := by
  unfold signed
  split
  · next heq =>
      cases heq
      cases h
  · next heq =>
      cases heq
      cases h
  · rfl

theorem toList_toString (n : Nat) : (toString n).toList = Nat.toDigits 10 n := by
  rw [Nat.toString_eq_repr, Nat.toList_repr]

theorem isDigit_of_mem_toString {n : Nat} {c : Char} (h : c ∈ (toString n).toList) :
    c.isDigit = true := by
  rw [toList_toString] at h
  exact Nat.isDigit_of_mem_toDigits (by decide) (by decide) h

/-- An index is read back from its decimal digits as long as it has no more than 64 bits. -/
theorem unsigned64?_toString {n : Nat} (h : n < twoTo 64) :
    unsigned64? (toString n).toList = some n := by
  have hnumber : ((toString n).toList.mapM (digitIn? 10)).map (numberIn 10) = some n := by
    rw [mapM_digitIn? fun c => isDigit_of_mem_toString, Option.map_some, numberIn_map_digitValue,
      toList_toString, Nat.ofDigitChars_ten_toDigits]
  cases htext : (toString n).toList with
  | nil =>
      rw [toList_toString] at htext
      exact absurd htext Nat.toDigits_ne_nil
  | cons c rest =>
      have hc : c.isDigit = true := isDigit_of_mem_toString (htext ▸ List.mem_cons_self)
      rw [htext] at hnumber
      rw [unsigned64?, signed_cons_of_isDigit hc]
      change (Option.map (numberIn 10) (List.mapM (digitIn? 10) (c :: rest))).filter _ = some n
      rw [hnumber, Option.filter_some, if_pos (decide_eq_true h)]

/-! ### Escapes -/

theorem replacePair_cons_of_ne {a b c x : Char} (h : x ≠ a) (rest : List Char) :
    replacePair a b c (x :: rest) = x :: replacePair a b c rest := by
  cases rest with
  | nil => rfl
  | cons y rest => rw [replacePair, if_neg (h ·.1)]

theorem replacePair_pair (a b c : Char) (rest : List Char) :
    replacePair a b c (a :: b :: rest) = c :: replacePair a b c rest := by
  rw [replacePair, if_pos ⟨rfl, rfl⟩]

theorem replacePair_cons_cons_of_ne {a b c y : Char} (h : y ≠ b) (rest : List Char) :
    replacePair a b c (a :: y :: rest) = a :: replacePair a b c (y :: rest) := by
  rw [replacePair, if_neg (h ·.2)]

namespace Node

/-- A character of a segment as it is written in a pointer. -/
def escapedChar (c : Char) : List Char :=
  if c = '~' then ['~', '0'] else if c = '/' then ['~', '1'] else [c]

/-- A segment as it is written in a pointer: every `~` as `~0`, every `/` as `~1`. -/
def escapedSegment (segment : List Char) : List Char := segment.flatMap escapedChar

/-- The pointer of a path, without the leading `#`: each segment behind a slash. -/
def pointer (path : List Position) : String :=
  String.ofList (path.flatMap fun position => '/' :: escapedSegment position.render.toList)

theorem toList_pointer (path : List Position) :
    (pointer path).toList =
      path.flatMap fun position => '/' :: escapedSegment position.render.toList :=
  String.toList_ofList

theorem slash_not_mem_escapedSegment (segment : List Char) : '/' ∉ escapedSegment segment := by
  rw [escapedSegment, List.mem_flatMap]
  rintro ⟨c, -, hc⟩
  unfold escapedChar at hc
  split at hc
  · simp at hc
  · split at hc
    · simp at hc
    · next hslash => exact hslash (List.mem_singleton.1 hc).symm

/-- Undoing `~1` leaves every other `~` in front of a `0`. -/
theorem replacePair_escapedSegment (segment : List Char) :
    replacePair '~' '1' '/' (escapedSegment segment) =
      segment.flatMap fun c => if c = '~' then ['~', '0'] else [c] := by
  induction segment with
  | nil => rfl
  | cons c rest ih =>
      rw [escapedSegment, List.flatMap_cons, List.flatMap_cons, ← escapedSegment, ← ih, escapedChar]
      by_cases htilde : c = '~'
      · rw [if_pos htilde, if_pos htilde]
        exact (replacePair_cons_cons_of_ne (by decide) _).trans
          (congrArg _ (replacePair_cons_of_ne (by decide) _))
      · rw [if_neg htilde, if_neg htilde]
        by_cases hslash : c = '/'
        · rw [if_pos hslash, hslash]
          exact replacePair_pair '~' '1' '/' _
        · rw [if_neg hslash]
          exact replacePair_cons_of_ne htilde _

theorem replacePair_tildes (segment : List Char) :
    replacePair '~' '0' '~' (segment.flatMap fun c => if c = '~' then ['~', '0'] else [c]) =
      segment := by
  induction segment with
  | nil => rfl
  | cons c rest ih =>
      rw [List.flatMap_cons]
      by_cases htilde : c = '~'
      · rw [if_pos htilde, htilde]
        exact (replacePair_pair '~' '0' '~' _).trans (congrArg _ ih)
      · rw [if_neg htilde]
        exact (replacePair_cons_of_ne htilde _).trans (congrArg _ ih)

/-- A segment is read back from the way it is written. -/
theorem unescapeSegment_escaped (segment : String) :
    unescapeSegment (escapedSegment segment.toList) = segment := by
  rw [unescapeSegment, replacePair_escapedSegment, replacePair_tildes, String.ofList_toList]

/-! ### Cutting pointers -/

theorem segments_flatMap_slash {first : List Char} (hfirst : '/' ∉ first) (path : List Position) :
    segments '/' (first ++ path.flatMap fun position =>
        '/' :: escapedSegment position.render.toList) =
      first :: path.map fun position => escapedSegment position.render.toList := by
  induction path generalizing first with
  | nil => rw [List.flatMap_nil, List.append_nil, segments_of_not_mem hfirst, List.map_nil]
  | cons position rest ih =>
      rw [List.flatMap_cons, List.cons_append, segments_append_separator hfirst,
        ih (slash_not_mem_escapedSegment _), List.map_cons]

theorem map_unescapeSegment_segments (path : List Position) :
    (segments '/' (pointer path).toList).map unescapeSegment = "" :: path.map Position.render := by
  have hcut := segments_flatMap_slash List.not_mem_nil path
  rw [List.nil_append] at hcut
  rw [toList_pointer, hcut, List.map_cons, List.map_map]
  refine congrArg (List.cons "") (List.map_congr_left fun position _ => ?_)
  exact unescapeSegment_escaped position.render

/-- The segments of a pointer are those of its path, behind an empty one. -/
theorem pointerSegments_pointer (path : List Position) :
    pointerSegments (pointer path) = "" :: path.map Position.render := by
  have hhash : ∀ rest, (pointer path).toList ≠ '#' :: rest := by
    rw [toList_pointer]
    cases path <;> simp
  rw [← map_unescapeSegment_segments, pointerSegments]
  split
  · next heq => exact absurd heq (hhash _)
  · rfl

theorem pointerSegments_hash_pointer (path : List Position) :
    pointerSegments ("#" ++ pointer path) = "" :: path.map Position.render := by
  have htext : ("#" ++ pointer path).toList = '#' :: (pointer path).toList := String.toList_append
  rw [← map_unescapeSegment_segments, pointerSegments, htext]
  rfl

/-! ### Rendered paths -/

/-- A segment without `~` and `/` is written as it is. -/
theorem escapedSegment_of_not_mem {segment : List Char} (htilde : '~' ∉ segment)
    (hslash : '/' ∉ segment) : escapedSegment segment = segment := by
  induction segment with
  | nil => rfl
  | cons c rest ih =>
      rw [List.mem_cons, not_or] at htilde hslash
      have hc : escapedChar c = [c] := by
        rw [escapedChar, if_neg (Ne.symm htilde.1), if_neg (Ne.symm hslash.1)]
      rw [escapedSegment, List.flatMap_cons, hc, ← escapedSegment, ih htilde.2 hslash.2]
      rfl

theorem toList_intercalate_slash (first : String) (rest : List String) :
    ("/".intercalate (first :: rest)).toList =
      first.toList ++ rest.flatMap fun segment => '/' :: segment.toList := by
  induction rest generalizing first with
  | nil => simp
  | cons next rest ih =>
      rw [String.intercalate_cons_cons, String.toList_append, ih]
      simp

theorem renderPath_root_cons (path : List Position) :
    (Position.renderPath (.root :: path)).toList =
      '#' :: path.flatMap fun position => '/' :: position.render.toList := by
  have htext := toList_intercalate_slash "#" (path.map Position.render)
  rw [List.flatMap_map] at htext
  exact htext

/-- Where no key holds a character that is escaped, the pointer is the rendered path. -/
theorem hash_pointer_eq_renderPath {path : List Position}
    (h : ∀ key, Position.key key ∈ path → '~' ∉ key.toList ∧ '/' ∉ key.toList) :
    "#" ++ pointer path = Position.renderPath (.root :: path) := by
  have hplain : ∀ position ∈ path,
      escapedSegment position.render.toList = position.render.toList := by
    intro position hposition
    cases position with
    | root => rfl
    | key key => exact escapedSegment_of_not_mem (h key hposition).1 (h key hposition).2
    | index i =>
        refine escapedSegment_of_not_mem (fun hc => ?_) (fun hc => ?_)
        · cases isDigit_of_mem_toString hc
        · cases isDigit_of_mem_toString hc
  rw [← String.toList_inj, renderPath_root_cons, String.toList_append, toList_pointer]
  refine congrArg (List.cons '#') (List.flatMap_congr fun position hposition => ?_)
  rw [hplain position hposition]

/-! ### Paths that lead to nodes -/

variable {n m : Node} {path : List Position}

theorem ne_empty_of_mem_render (h : ∀ key, Position.key key ∈ path → key ≠ "") :
    ∀ segment ∈ path.map Position.render, segment ≠ "" := by
  rw [List.forall_mem_map]
  intro position hposition
  cases position with
  | root => decide
  | key key => exact h key hposition
  | index i => exact Nat.repr_ne_empty

/-- A path of positions can be passed as a path of segments. -/
theorem Leads.passes (hlead : n.Leads path m) (hkeys : n.KeysDistinct)
    (hindices : ∀ i, Position.index i ∈ path → i < twoTo 64) :
    n.Passes (path.map Position.render) m := by
  induction hlead with
  | here n => exact .here n
  | item hitem _ ih =>
      have hindex := unsigned64?_toString (hindices _ List.mem_cons_self)
      refine .step (.index hindex hitem) (ih ?_ fun i hi => hindices i (List.mem_cons_of_mem _ hi))
      exact keysDistinct_array.1 hkeys _ (List.mem_of_getElem? hitem)
  | member hchild _ ih =>
      obtain ⟨hdistinct, hbelow⟩ := keysDistinct_object.1 hkeys
      have hget := Members.get?_of_mem hdistinct hchild
      refine .step (.key hget) (ih ?_ fun i hi => hindices i (List.mem_cons_of_mem _ hi))
      exact hbelow _ hchild

/-- The traversal meets every node of a tree exactly once, under the path of positions that leads to
it, and in depth-first order. Every path leads back to its node: as segments, and as a pointer with
or without the leading `#`. The keys on it must not be empty, and an index must have no more than 64
bits, as it has in every array that fits into memory. -/
theorem entries_lead_back (h : n.KeysDistinct) :
    (∀ path m, (path, m) ∈ n.entries ↔ ∃ below, path = .root :: below ∧ n.Leads below m) ∧
    (n.entries.map Prod.fst).Nodup ∧
    n.entries.Pairwise (fun entry entry' => n.Precedes entry.1.tail entry'.1.tail) ∧
    (∀ path path', n.Precedes path path' → ¬ n.Precedes path' path) ∧
    ∀ path m, (.root :: path, m) ∈ n.entries →
      (∀ key, Position.key key ∈ path → key ≠ "") →
      (∀ i, Position.index i ∈ path → i < twoTo 64) →
        n.property (path.map Position.render) = some m ∧
        n.select ("#" ++ pointer path) = some m ∧
        n.select (pointer path) = some m ∧
        ((∀ key, Position.key key ∈ path → '~' ∉ key.toList ∧ '/' ∉ key.toList) →
          "#" ++ pointer path = Position.renderPath (.root :: path)) := by
  refine ⟨fun path m => mem_entries_iff, h.nodup_paths_entries, pairwise_precedes_entries n,
    fun _ _ => h.not_precedes, fun path m hentry hkeys hindices => ?_⟩
  obtain ⟨_, ⟨⟩, hlead⟩ := mem_entries_iff.1 hentry
  have hproperty : n.property (path.map Position.render) = some m := by
    have hpasses := hlead.passes h hindices
    have hfound := hpasses.property_append (ne_empty_of_mem_render hkeys) []
    rwa [List.append_nil, property_nil] at hfound
  refine ⟨hproperty, ?_, ?_, hash_pointer_eq_renderPath⟩
  · rw [select, pointerSegments_hash_pointer, property_cons_empty, hproperty]
  · rw [select, pointerSegments_pointer, property_cons_empty, hproperty]

/-- A tree with keys that pointers have to escape, and one that they have not. -/
def slashedTree : Node :=
  literal (.literal 0 .null) .empty
    (.object [("a/b", .object [("~1", .array [.ofInt 10, .ofInt 20])]), ("x", .bool true)])

theorem entries_lead_back_slashedTree :
    slashedTree.KeysDistinct ∧ (slashedTree.entries.map Prod.fst).Nodup ∧
    (∃ found, ([.root, .key "a/b", .key "~1", .index 1], found) ∈ slashedTree.entries ∧
      found.toJson = .ofInt 20 ∧ slashedTree.property ["a/b", "~1", "1"] = some found ∧
      slashedTree.select "#/a~1b/~01/1" = some found ∧
      slashedTree.select "/a~1b/~01/1" = some found) ∧
    ∃ found, ([.root, .key "x"], found) ∈ slashedTree.entries ∧
      slashedTree.select (Position.renderPath [.root, .key "x"]) = some found := by
  have hkeys : slashedTree.KeysDistinct := by decide
  obtain ⟨-, hnodup, -, -, hback⟩ := entries_lead_back hkeys
  refine ⟨hkeys, hnodup, ?_, ?_⟩
  · obtain ⟨found, hentry, hvalue⟩ : ∃ found,
        ([.root, .key "a/b", .key "~1", .index 1], found) ∈ slashedTree.entries ∧
          found.toJson = .ofInt 20 :=
      ⟨_, List.mem_of_getElem? (i := 4) rfl, rfl⟩
    obtain ⟨hproperty, hhash, hplain, -⟩ := hback _ found hentry (by simp) (by simp [twoTo])
    exact ⟨found, hentry, hvalue, hproperty, hhash, hplain⟩
  · obtain ⟨found, hentry⟩ : ∃ found, ([.root, .key "x"], found) ∈ slashedTree.entries :=
      ⟨_, List.mem_of_getElem? (i := 5) rfl⟩
    obtain ⟨-, hhash, -, hrendered⟩ := hback _ found hentry (by simp) (by simp)
    refine ⟨found, hentry, ?_⟩
    rw [← hrendered (by simp)]
    exact hhash

end Node

end LayeredConfig
