import LayeredConfig.Proofs.Escaping.StrayKeys
import LayeredConfig.Proofs.Evaluation.Calls

/-!
# Escaped documents are inert

Escaping puts one more marker in front of every key that starts with the marker. No key of an
escaped value is stray, so no directive behind the marker sees its key, and unescaping is the only
extension that ever matches; that is `evaluateNode_eq_alone`, on whole runs. What unescaping leaves
is the value that was escaped. The main statement, `evaluate_escaped`, puts the two together.
-/

namespace LayeredConfig

namespace Marker

/-- The key with one more marker in front of it when it starts with the marker. -/
def escaped (marker key : String) : String := if starts marker key then marker ++ key else key

variable {marker : String}

theorem literal?_escaped (hm : marker ≠ "") (key : String) :
    literal? marker (escaped marker key) = if starts marker key then some key else none := by
  by_cases h : starts marker key = true
  · rw [escaped, if_pos h, if_pos h]
    exact literal?_eq_some_iff.2 ⟨hm, rfl, h⟩
  · rw [escaped, if_neg h, if_neg h, Option.eq_none_iff_forall_ne_some]
    intro name hname
    obtain ⟨-, rfl, -⟩ := literal?_eq_some_iff.1 hname
    exact h (starts_append name)

theorem unescaped_escaped (hm : marker ≠ "") (key : String) :
    unescaped marker (escaped marker key) = key := by
  rw [unescaped, literal?_escaped hm]
  by_cases h : starts marker key = true <;> simp [escaped, h]

theorem stray_escaped (hm : marker ≠ "") (key : String) :
    stray marker (escaped marker key) = false := by
  rw [Bool.eq_false_iff, ne_eq, stray_iff hm, literal?_escaped hm]
  by_cases h : starts marker key = true <;> simp [escaped, h]

end Marker

namespace Json

mutual

/-- The value with one more marker in front of every key that starts with the marker. -/
def escaped (marker : String) : Json → Json
  | .array items => .array (escapedItems marker items)
  | .object members => .object (escapedMembers marker members)
  | v => v

def escapedItems (marker : String) : List Json → List Json
  | [] => []
  | item :: rest => escaped marker item :: escapedItems marker rest

def escapedMembers (marker : String) : List (String × Json) → List (String × Json)
  | [] => []
  | (key, value) :: rest =>
    (Marker.escaped marker key, escaped marker value) :: escapedMembers marker rest

end

variable {marker : String}

theorem escaped_array (items : List Json) :
    (array items).escaped marker = .array (items.map (escaped marker)) := by
  have h : escapedItems marker items = items.map (escaped marker) := by
    induction items with
    | nil => rw [escapedItems, List.map_nil]
    | cons item rest ih => rw [escapedItems, ih, List.map_cons]
  rw [escaped, h]

theorem escaped_object (members : List (String × Json)) :
    (object members).escaped marker =
      .object (members.map fun entry =>
        (Marker.escaped marker entry.1, entry.2.escaped marker)) := by
  have h : escapedMembers marker members =
      members.map fun entry => (Marker.escaped marker entry.1, entry.2.escaped marker) := by
    induction members with
    | nil => rw [escapedMembers, List.map_nil]
    | cons entry rest ih => rw [escapedMembers, ih, List.map_cons]
  rw [escaped, h]

theorem escaped_of_isPrimitive {v : Json} (h : v.isPrimitive = true) : v.escaped marker = v := by
  cases v with
  | array items => simp [isPrimitive] at h
  | object members => simp [isPrimitive] at h
  | _ => rw [escaped] <;> simp

theorem depth_escaped (v : Json) : (v.escaped marker).depth = v.depth := by
  induction v using Json.induct with
  | array items ih =>
      rw [escaped_array, depth, depth]
      congr 1
      induction items with
      | nil => rfl
      | cons item rest ihrest =>
          obtain ⟨hitem, hrest⟩ := List.forall_mem_cons.1 ih
          rw [List.map_cons, itemsDepth, itemsDepth, hitem, ihrest hrest]
  | object members ih =>
      rw [escaped_object, depth, depth]
      congr 1
      induction members with
      | nil => rfl
      | cons entry rest ihrest =>
          obtain ⟨hentry, hrest⟩ := List.forall_mem_cons.1 ih
          rw [List.map_cons, membersDepth, membersDepth, hentry, ihrest hrest]
  | _ => rw [escaped_of_isPrimitive rfl]

theorem everywhere_escaped (hm : marker ≠ "") (v : Json) :
    (v.escaped marker).Everywhere fun part =>
      ∀ key ∈ part.keys, Marker.stray marker key = false := by
  induction v using Json.induct with
  | array items ih =>
      rw [escaped_array, everywhere_array, List.forall_mem_map]
      exact ⟨by simp, ih⟩
  | object members ih =>
      rw [escaped_object, everywhere_object, List.forall_mem_map]
      refine ⟨?_, ih⟩
      rw [keys_object, Members.keys, List.map_map, List.forall_mem_map]
      exact fun entry _ => Marker.stray_escaped hm entry.1
  | _ =>
      rw [escaped_of_isPrimitive rfl, everywhere_of_isPrimitive rfl]
      simp [keys, members?]

theorem Distinct.escaped (hm : marker ≠ "") {v : Json} (hv : v.Distinct) :
    (v.escaped marker).Distinct := by
  induction v using Json.induct with
  | array items ih =>
      cases hv with
      | array hitems =>
          rw [escaped_array]
          refine .array ?_
          rw [List.forall_mem_map]
          exact fun item hitem => ih item hitem (hitems item hitem)
  | object members ih =>
      rw [escaped_object]
      refine .object ?_ fun key value hentry => ?_
      · rw [Members.Distinct, Members.keys, List.map_map]
        have hkeys := hv.members
        rw [Members.Distinct, Members.keys, List.Nodup, List.pairwise_map] at hkeys
        rw [List.Nodup, List.pairwise_map]
        refine hkeys.imp fun hne heq => hne ?_
        have hback := congrArg (Marker.unescaped marker) heq
        simpa [Marker.unescaped_escaped hm] using hback
      · obtain ⟨entry, hmem, heq⟩ := List.mem_map.1 hentry
        obtain ⟨rfl, rfl⟩ := Prod.mk.inj heq
        exact ih entry hmem (hv.member hmem)
  | _ => rwa [escaped_of_isPrimitive rfl]

end Json

namespace Node

/-- Unescaping gives back the value that was escaped. -/
theorem toJson_marked_escaped {marker : String} (hm : marker ≠ "") {v : Json} (hv : v.Distinct)
    (source : Source) (metadata : Metadata) :
    (marked (unescapingMark marker) source metadata (v.escaped marker)).toJson = v := by
  induction v using Json.induct generalizing metadata with
  | array items ih =>
      cases hv with
      | array hitems =>
          rw [Json.escaped_array, marked_unescaping_array, toJson_array, List.map_map,
            List.map_map]
          refine congrArg Json.array ((List.map_congr_left ?_).trans (List.map_id items))
          exact fun item hitem => ih item hitem (hitems item hitem) _
  | object members ih =>
      -- Every member comes back under its own key, so that no two of them meet.
      have hkeys : Members.keys ((members.map fun entry =>
          (Marker.escaped marker entry.1, entry.2.escaped marker)).map
            (unescapedMember marker source)) = Members.keys members := by
        rw [Members.keys, Members.keys, List.map_map, List.map_map]
        exact List.map_congr_left fun entry _ => Marker.unescaped_escaped hm entry.1
      have hdistinct : Members.Distinct ((members.map fun entry =>
          (Marker.escaped marker entry.1, entry.2.escaped marker)).map
            (unescapedMember marker source)) := by
        rw [Members.Distinct, hkeys]
        exact hv.members
      rw [Json.escaped_object, marked_unescaping_object, Members.ofList_eq_self hdistinct,
        toJson_object, Members.mapValues, List.map_map, List.map_map]
      refine congrArg Json.object ((List.map_congr_left ?_).trans (List.map_id members))
      intro entry hentry
      have hvalue := ih entry hentry (hv.member hentry)
      exact Prod.ext (Marker.unescaped_escaped hm entry.1) (hvalue _)
  | _ => rw [Json.escaped_of_isPrimitive rfl, marked_of_isPrimitive rfl, toJson_leaf]

end Node

/-! ### Directives that see none of their keys -/

theorem run_reparse_congr {ι : Type} {parse parse' : Json → Overrides ι → Run Node} {value : Json}
    {metadata : Metadata}
    (h : parse value { metadata := metadata } = parse' value { metadata := metadata })
    (input input' : Input ι) :
    (Extension.reparse value metadata input).run parse =
      (Extension.reparse value metadata input').run parse' := by
  rw [Extension.reparse, Extension.reparse, Program.evaluate, Program.run, Program.run, h]
  congr 1
  funext result
  cases result <;> rfl

/-- The frame with one extension in place of its own. -/
def Frame.alone {ι : Type} (frame : Frame ι) (e : ι) : Frame ι := { frame with extensions := [e] }

section

variable {ι : Type} [DecidableEq ι] {catalogue : Catalogue ι} {marker : String} {e : ι}
  {before after : List ι}

/-- The handle stands for a directive on one stray key, whatever its handler does. -/
def IsStrayDirective (catalogue : Catalogue ι) (marker : String) (d : ι) : Prop :=
  ∃ name handler, catalogue d = .keyDirective name handler ∧ Marker.stray marker name = true

/-- At a position that is no stray key, directives on stray keys leave the match to the rest. -/
theorem match?_eq_alone {frame : Frame ι} (hext : frame.extensions = before ++ e :: after)
    (hinert : ∀ d ∈ before ++ after, IsStrayDirective catalogue marker d)
    (hposition : ∀ key, frame.position = .key key → Marker.stray marker key = false)
    (value : Json) :
    frame.match? catalogue value = (frame.alone e).match? catalogue value := by
  have hnone : ∀ d ∈ before ++ after, ((catalogue d).applies value frame.position
      frame.ancestors frame.context).map (fun transform => (d, transform)) = none := by
    intro d hd
    obtain ⟨name, handler, hdirective, hstray⟩ := hinert d hd
    have hkey : frame.position.isKey name = false := by
      rw [Bool.eq_false_iff, ne_eq, Position.isKey_iff]
      intro heq
      rw [hposition name heq] at hstray
      cases hstray
    rw [hdirective]
    simp [Extension.keyDirective, hkey]
  have hskip : ∀ ds : List ι, (∀ d ∈ ds, d ∈ before ++ after) →
      ((ds.filter fun d => !frame.hasVisited catalogue d).findSome? fun d =>
        ((catalogue d).applies value frame.position frame.ancestors frame.context).map
          fun transform => (d, transform)) = none := by
    intro ds hds
    rw [List.findSome?_eq_none_iff]
    exact fun d hd => hnone d (hds d (List.mem_filter.1 hd).1)
  change (frame.extensions.filter fun d => !frame.hasVisited catalogue d).findSome? _ =
    ([e].filter fun d => !frame.hasVisited catalogue d).findSome? _
  rw [hext, List.append_cons, List.filter_append, List.filter_append, List.findSome?_append,
    List.findSome?_append, hskip before fun d hd => List.mem_append_left after hd,
    hskip after fun d hd => List.mem_append_right before hd, Option.none_or, Option.or_none]
  rfl

theorem eq_reparse_of_match?_alone {frame : Frame ι} {value : Json} {d : ι}
    {transform : Transform ι} (he : catalogue e = .unescapeDirectives marker)
    (h : (frame.alone e).match? catalogue value = some (d, transform)) :
    d = e ∧ ∃ metadata, transform = Extension.reparse value metadata := by
  obtain ⟨d', hd', hfound⟩ := List.exists_of_findSome?_eq_some h
  obtain rfl : d' = e := List.mem_singleton.1 (List.mem_filter.1 hd').1
  rw [he, Option.map_eq_some_iff] at hfound
  obtain ⟨transform', happlies, heq⟩ := hfound
  obtain ⟨rfl, rfl⟩ := Prod.mk.inj heq
  obtain ⟨name, -, rfl⟩ := Option.map_eq_some_iff.1 happlies
  exact ⟨rfl, _, rfl⟩

/-- In a value without stray keys, directives on stray keys have no part in the run: it is the
run of the extension that unescapes, event by event. -/
theorem evaluateNode_eq_alone (he : catalogue e = .unescapeDirectives marker)
    (hinert : ∀ d ∈ before ++ after, IsStrayDirective catalogue marker d) (limit : Nat)
    {frame : Frame ι} {value : Json} (hext : frame.extensions = before ++ e :: after)
    (hposition : ∀ key, frame.position = .key key → Marker.stray marker key = false)
    (hvalue : value.Everywhere fun part =>
      ∀ key ∈ part.keys, Marker.stray marker key = false) :
    evaluateNode catalogue limit frame value =
      evaluateNode catalogue limit (frame.alone e) value := by
  induction limit generalizing frame value with
  | zero => rfl
  | succ limit ih =>
      -- Both runs match the same extension or none; below, they differ in their frames alone.
      have hmatch := match?_eq_alone hext hinert hposition value
      cases hsome : (frame.alone e).match? catalogue value with
      | some found =>
          obtain ⟨d, transform⟩ := found
          obtain ⟨rfl, metadata, rfl⟩ := eq_reparse_of_match?_alone he hsome
          have hagain : evaluateNode catalogue limit
                ((frame.visit d).overridden { metadata := metadata }) value =
              evaluateNode catalogue limit
                (((frame.alone d).visit d).overridden { metadata := metadata }) value :=
            ih hext hposition hvalue
          rw [evaluateNode, evaluateNode, hmatch.trans hsome, hsome]
          refine congrArg (Run.report _ >>= fun _ => ·) ?_
          apply run_reparse_congr
          exact hagain
      | none =>
          rw [evaluateNode_of_match_none (hmatch.trans hsome), evaluateNode_of_match_none hsome]
          refine Eq.trans ?_ (descend_relisted (evaluateNode catalogue limit) frame [e] value).symm
          refine descend_rel Run.respected_eq (hmatch.trans hsome) fun inner henters => ?_
          cases henters with
          | item _ hitem =>
              obtain ⟨-, hitems⟩ := Json.everywhere_array.1 hvalue
              exact ih hext (by simp [Frame.child]) (hitems _ (List.mem_of_getElem? hitem))
          | @member _ _ key _ _ hmember =>
              obtain ⟨hkeys, hmembers⟩ := Json.everywhere_object.1 hvalue
              refine ih hext (fun other hother => ?_) (hmembers _ hmember)
              cases hother
              exact hkeys key (List.mem_map_of_mem hmember)

end

namespace Evaluator

/-- An escaped document is inert under unescaping and any directives on stray keys, wherever they
stand in the list of extensions. Evaluation gives a tree of the document as it was before it was
escaped, which validation passes, and the run is the one without the directives: whatever their
handlers do, none of them has a part in it. -/
theorem evaluate_escaped {ι : Type} [DecidableEq ι] (setting : Setting ι) (ev : Evaluator ι)
    {e : ι} {before after : List ι} {marker : String} (hm : marker ≠ "")
    (he : setting.catalogue e = .unescapeDirectives marker)
    (hinert : ∀ d ∈ before ++ after, IsStrayDirective setting.catalogue marker d)
    (hext : ev.extensions = before ++ e :: after) {v : Json} (hv : v.Distinct)
    (hlimit : 2 * (v.depth + 1) ≤ setting.limit) (source : Source) :
    (∃ tree, (ev.evaluate setting (v.escaped marker) source).result = .ok tree ∧
      tree.toJson = v ∧ ReservedKeys.validate marker tree = .ok ()) ∧
    ev.evaluate setting (v.escaped marker) source =
      ({ ev with extensions := [e] } : Evaluator ι).evaluate setting (v.escaped marker) source := by
  have halone : ev.evaluate setting (v.escaped marker) source =
      ({ ev with extensions := [e] } : Evaluator ι).evaluate setting (v.escaped marker) source :=
    evaluateNode_eq_alone he hinert setting.limit hext (by simp [rootFrame])
      (Json.everywhere_escaped hm v)
  have hlimit' : 2 * ((v.escaped marker).depth + 1) ≤ setting.limit := by
    rwa [Json.depth_escaped]
  have htree : (({ ev with extensions := [e] } : Evaluator ι).evaluate setting
      (v.escaped marker) source).result = _ :=
    result_evaluate_eq_marked (onlyMarks_unescapeDirectives he) _ source hlimit'
  rw [← halone] at htree
  refine ⟨⟨_, htree, Node.toJson_marked_escaped hm hv source _, ?_⟩, halone⟩
  rw [ReservedKeys.validate_eq_ok_iff hm, ReservedKeys.respects_unescaped_iff hm (hv.escaped hm)]
  exact Json.straysLost_of_everywhere (Json.everywhere_escaped hm v)

/-- A setting with unescaping behind `aa`, and a directive on the stray key `aaa` that fails. -/
def overlappingSetting : Setting Bool where
  host := ⟨[], []⟩
  catalogue unescapes :=
    if unescapes then .unescapeDirectives "aa"
    else .keyDirective "aaa" fun _ _ => .fail (.internal "the directive saw its key")
  limit := 12

/-- A document with keys of two, three and five times the letter that the marker repeats. -/
def overlappingDocument : Json :=
  .object [("aaa", .object [("aaaaa", .ofInt 1), ("a", .array [.object [("aa", .null)]])]),
    ("b", .bool true)]

theorem evaluate_escaped_overlappingDocument :
    overlappingDocument.Distinct ∧
    overlappingDocument.escaped "aa" =
      .object [("aaaaa", .object [("aaaaaaa", .ofInt 1),
        ("a", .array [.object [("aaaa", .null)]])]), ("b", .bool true)] ∧
    ∃ tree, ((Evaluator.mk [false, true, false] .empty .empty).evaluate overlappingSetting
        (overlappingDocument.escaped "aa") (.literal 0 .null)).result = .ok tree ∧
      tree.toJson = overlappingDocument ∧ ReservedKeys.validate "aa" tree = .ok () := by
  have hdistinct : overlappingDocument.Distinct := by decide
  have hinert : ∀ d ∈ [false] ++ [false],
      IsStrayDirective overlappingSetting.catalogue "aa" d := by
    intro d hd
    obtain rfl : d = false := by simpa using hd
    exact ⟨"aaa", _, rfl, by decide⟩
  obtain ⟨htree, -⟩ := evaluate_escaped overlappingSetting ⟨[false, true, false], .empty, .empty⟩
    (by decide) (by rfl) hinert rfl hdistinct (by decide) (.literal 0 .null)
  exact ⟨hdistinct, by decide, htree⟩

end Evaluator

end LayeredConfig
