import LayeredConfig.Evaluation.Loading
import LayeredConfig.Extension.Builtin
import LayeredConfig.Proofs.Members.Listed
import LayeredConfig.Proofs.ObjectStep.Taken

/-!
# Extensions that only mark

Marking, unescaping and having no extension at all have one thing in common: every node is
evaluated as it stands, once more at most, and what an extension does is to lay metadata over it
that depends on its position alone. `OnlyMarks` says this of a list of extensions, and
`Node.marked` is the tree that comes of it, by recursion on the value. The main statement,
`result_evaluate_eq_marked`, is that evaluation gives that tree whenever it may nest two calls for
every level of the value: one that matches, and one that descends. Where all nodes below the root
get one mark, the tree is the literal tree under another root (`Node.marked_eq_literal`).
-/

namespace LayeredConfig

namespace Node

mutual

/-- The tree of a value with the given metadata at its root and `mark` of its position at every
node below it. A member whose mark renames it is kept under its new key. -/
def marked (mark : Position → Metadata) (source : Source) (metadata : Metadata) : Json → Node
  | .array items =>
    .array ⟨[source], .array items, metadata⟩ (markedItems mark source 0 items)
  | .object members =>
    .object ⟨[source], .object members, metadata⟩
      (Members.ofList ((markedMembers mark source members).filterMap ObjectStep.keptMember?))
  | value => .leaf ⟨[source], value, metadata⟩ value

/-- The trees of elements, the first of which stands at `index`. -/
def markedItems (mark : Position → Metadata) (source : Source) (index : Nat) :
    List Json → List Node
  | [] => []
  | item :: rest =>
    marked mark source (Metadata.empty.extended (mark (.index index))) item ::
      markedItems mark source (index + 1) rest

def markedMembers (mark : Position → Metadata) (source : Source) :
    List (String × Json) → List (String × Node)
  | [] => []
  | (key, value) :: rest =>
    (key, marked mark source (Metadata.empty.extended (mark (.key key))) value) ::
      markedMembers mark source rest

end

variable {mark : Position → Metadata} {source : Source} {metadata : Metadata}

theorem marked_of_isPrimitive {v : Json} (h : v.isPrimitive = true) :
    marked mark source metadata v = .leaf ⟨[source], v, metadata⟩ v := by
  cases v with
  | array items => simp [Json.isPrimitive] at h
  | object members => simp [Json.isPrimitive] at h
  | _ => rw [marked] <;> simp

@[simp] theorem metadata_marked (v : Json) :
    (marked mark source metadata v).metadata = metadata := by
  cases v with
  | array items => rw [marked]; rfl
  | object members => rw [marked]; rfl
  | _ => rw [marked_of_isPrimitive rfl]; rfl

theorem markedItems_eq_map {upper : Metadata} (h : ∀ index, mark (.index index) = upper)
    (index : Nat) (items : List Json) :
    markedItems mark source index items =
      items.map (marked mark source (Metadata.empty.extended upper)) := by
  induction items generalizing index with
  | nil => rw [markedItems, List.map_nil]
  | cons item rest ih => rw [markedItems, h, ih, List.map_cons]

theorem markedMembers_eq_map (members : List (String × Json)) :
    markedMembers mark source members =
      members.map fun entry =>
        (entry.1, marked mark source (Metadata.empty.extended (mark (.key entry.1))) entry.2) := by
  induction members with
  | nil => rw [markedMembers, List.map_nil]
  | cons entry rest ih => rw [markedMembers, ih, List.map_cons]

/-- A literal tree under other metadata at its root is what comes of it when every node below the
root has one mark, and the mark asks for nothing but to stay. -/
theorem marked_eq_literal {upper : Metadata}
    (hmark : ∀ position, position ≠ .root → mark position = upper)
    (hkeep : ObjectStep.requestOf (Metadata.empty.extended upper) = .keep) {v : Json}
    (hv : v.Distinct) :
    marked mark source metadata v =
      (literal source (Metadata.empty.extended upper) v).withMetadata metadata := by
  induction v using Json.induct generalizing metadata with
  | array items ih =>
      cases hv with
      | array hitems =>
          rw [marked, markedItems_eq_map fun index => hmark _ (by simp), literal_array]
          refine congrArg (Node.array _) (List.map_congr_left fun item hitem => ?_)
          rw [ih item hitem (hitems item hitem), withMetadata_literal_self]
  | object members ih =>
      have hmembers : markedMembers mark source members =
          Members.mapValues (literal source (Metadata.empty.extended upper)) members := by
        rw [markedMembers_eq_map]
        refine List.map_congr_left fun entry hentry => ?_
        rw [hmark _ (by simp), ih entry hentry (hv.member hentry), withMetadata_literal_self]
      have hkept : ∀ entry : String × Json, ObjectStep.keptMember?
          (entry.1, literal source (Metadata.empty.extended upper) entry.2) =
            some (entry.1, literal source (Metadata.empty.extended upper) entry.2) := by
        intro entry
        have hmetadata := (everywhere_metadata_literal source (Metadata.empty.extended upper)
          entry.2).root
        rw [ObjectStep.keptMember?, hmetadata, hkeep]
      have hall : (Members.mapValues (literal source (Metadata.empty.extended upper))
          members).filterMap ObjectStep.keptMember? =
            Members.mapValues (literal source (Metadata.empty.extended upper)) members := by
        rw [Members.mapValues, List.filterMap_map, ← List.filterMap_eq_map]
        congr 1
        funext entry
        exact hkept entry
      rw [marked, hmembers, hall, literal_object,
        Members.ofList_eq_self ((Members.distinct_mapValues _).2 hv.members)]
      rfl
  | _ => rw [marked_of_isPrimitive rfl, literal_of_isPrimitive _ _ rfl]; rfl

end Node

/-! ### Children side by side -/

theorem result_besideItems_of_forall {f : Nat → Json → Run Node} {mark : Position → Metadata}
    {source : Source} (index : Nat) {items : List Json}
    (h : ∀ item ∈ items, ∀ index, (f index item).result =
      .ok (Node.marked mark source (Metadata.empty.extended (mark (.index index))) item)) :
    (besideItems f index items).result = .ok (Node.markedItems mark source index items) := by
  induction items generalizing index with
  | nil => rw [besideItems, Node.markedItems]; rfl
  | cons item rest ih =>
      obtain ⟨hitem, hrest⟩ := List.forall_mem_cons.1 h
      rw [besideItems, Node.markedItems]
      exact Run.result_beside_eq_ok_iff.2 ⟨_, _, hitem index, ih (index + 1) hrest, rfl⟩

theorem result_besideMembers_of_forall {f : String → Json → Run Node} {mark : Position → Metadata}
    {source : Source} {members : List (String × Json)}
    (h : ∀ entry ∈ members, (f entry.1 entry.2).result =
      .ok (Node.marked mark source (Metadata.empty.extended (mark (.key entry.1))) entry.2)) :
    (besideMembers f members).result = .ok (Node.markedMembers mark source members) := by
  induction members with
  | nil => rw [besideMembers, Node.markedMembers]; rfl
  | cons entry rest ih =>
      obtain ⟨hentry, hrest⟩ := List.forall_mem_cons.1 h
      rw [besideMembers, Node.markedMembers]
      refine Run.result_beside_eq_ok_iff.2 ⟨_, _, ?_, ih hrest, rfl⟩
      rw [Run.result_bind, hentry]
      rfl

section

variable {ι : Type} [DecidableEq ι] {catalogue : Catalogue ι} {extensions : List ι}
  {mark : Position → Metadata}

/-- A list of extensions that only mark. At a node that nothing has matched yet, either none of
them applies and the mark of the position is empty, or the first that applies has the value
evaluated again under the mark of the position, where no other applies. Marks never take a member
out of its object. -/
structure OnlyMarks (catalogue : Catalogue ι) (extensions : List ι)
    (mark : Position → Metadata) : Prop where
  match_cases : ∀ (frame : Frame ι) (value : Json), frame.extensions = extensions →
    frame.visited = [] →
      frame.match? catalogue value = none ∧ mark frame.position = .empty ∨
      ∃ e, frame.match? catalogue value =
          some (e, Extension.reparse value (mark frame.position)) ∧
        (frame.visit e).match? catalogue value = none
  keeps : ∀ position, ObjectStep.keeps (Metadata.empty.extended (mark position)) = true

/-! ### One node -/

theorem evaluateNode_of_match_none {limit : Nat} {frame : Frame ι} {value : Json}
    (h : frame.match? catalogue value = none) :
    evaluateNode catalogue (limit + 1) frame value =
      descend (evaluateNode catalogue limit) frame value := by
  rw [evaluateNode, h]

omit [DecidableEq ι] in
theorem outcome_run_reparse (parse : Json → Overrides ι → Run Node) (value : Json)
    (metadata : Metadata) (input : Input ι) :
    ((Extension.reparse value metadata input).run parse).outcome =
      (parse value { metadata := metadata }).outcome := by
  change ((parse value { metadata := metadata }).attempt.bind _).outcome = _
  obtain ⟨rounds, events, result⟩ := parse value { metadata := metadata }
  cases result with
  | ok node => rfl
  | error s => cases s <;> rfl

theorem outcome_evaluateNode_of_reparse {limit : Nat} {frame : Frame ι} {value : Json} {e : ι}
    {metadata : Metadata}
    (h : frame.match? catalogue value = some (e, Extension.reparse value metadata)) :
    (evaluateNode catalogue (limit + 1) frame value).outcome =
      (evaluateNode catalogue limit
        ((frame.visit e).overridden { metadata := metadata }) value).outcome := by
  simp only [evaluateNode, h]
  refine Eq.trans ?_ (outcome_run_reparse (fun v overrides =>
    evaluateNode catalogue limit ((frame.visit e).overridden overrides) v) value metadata
    frame.input)
  rw [Run.outcome, Run.result_bind, Run.rounds_bind_of_ok (Run.result_report _), Run.rounds_report,
    Nat.zero_add]
  rfl

theorem result_evaluateNode_of_reparse {limit : Nat} {frame : Frame ι} {value : Json} {e : ι}
    {metadata : Metadata}
    (h : frame.match? catalogue value = some (e, Extension.reparse value metadata)) :
    (evaluateNode catalogue (limit + 1) frame value).result =
      (evaluateNode catalogue limit
        ((frame.visit e).overridden { metadata := metadata }) value).result :=
  congrArg Prod.snd (outcome_evaluateNode_of_reparse h)

/-- Descending gives the marked tree when evaluation gives it for every child. -/
theorem result_descend_eq_marked (hm : OnlyMarks catalogue extensions mark)
    {call : Frame ι → Json → Run Node} {frame : Frame ι} {value : Json}
    (hext : frame.extensions = extensions)
    (hcall : ∀ child : Json, child.depth < value.depth → ∀ below : Frame ι,
      below.extensions = extensions → below.visited = [] →
        (call below child).result = .ok (Node.marked mark below.source
          (below.metadata.extended (mark below.position)) child)) :
    (descend call frame value).result =
      .ok (Node.marked mark frame.source frame.metadata value) := by
  cases value with
  | array items =>
      have hitems : (besideItems (fun i => call (frame.child (.index i) (.array items))) 0
          items).result = .ok (Node.markedItems mark frame.source 0 items) :=
        result_besideItems_of_forall 0 fun item hitem index =>
          hcall item (Nat.lt_succ_of_le (Json.depth_le_itemsDepth hitem))
            (frame.child (.index index) (.array items)) hext rfl
      rw [descend, Run.result_bind, hitems, Node.marked]
      rfl
  | object members =>
      have hmembers : (besideMembers (fun key => call (frame.child (.key key) (.object members)))
          members).result = .ok (Node.markedMembers mark frame.source members) :=
        result_besideMembers_of_forall fun entry hentry =>
          hcall entry.2 (Nat.lt_succ_of_le (Json.depth_le_membersDepth hentry))
            (frame.child (.key entry.1) (.object members)) hext rfl
      have hkeeps : ∀ entry ∈ Node.markedMembers mark frame.source members,
          ObjectStep.keeps entry.2.metadata = true := by
        rw [Node.markedMembers_eq_map, List.forall_mem_map]
        intro entry _
        rw [Node.metadata_marked]
        exact hm.keeps _
      rw [descend, Run.result_bind, hmembers, Node.marked]
      change (Run.ofLogged (ObjectStep.run frame.path _ _)).result = _
      rw [Run.result_ofLogged, ObjectStep.result_run_of_keeps _ _ hkeeps]
      rfl
  | _ => rw [Node.marked_of_isPrimitive rfl]; rfl

/-! ### The whole value -/

/-- Evaluation under extensions that only mark, with two calls for every level. -/
theorem result_evaluateNode_eq_marked (hm : OnlyMarks catalogue extensions mark) (value : Json)
    {limit : Nat} {frame : Frame ι} (hext : frame.extensions = extensions)
    (hvisited : frame.visited = []) (hlimit : 2 * (value.depth + 1) ≤ limit) :
    (evaluateNode catalogue limit frame value).result = .ok (Node.marked mark frame.source
      (frame.metadata.extended (mark frame.position)) value) := by
  induction hd : value.depth using Nat.strongRecOn generalizing value limit frame with
  | ind depth ih =>
      subst hd
      have hdescend : ∀ n, 2 * value.depth ≤ n → ∀ here : Frame ι, here.extensions = extensions →
          (descend (evaluateNode catalogue n) here value).result =
            .ok (Node.marked mark here.source here.metadata value) := by
        intro n hn here hhere
        apply result_descend_eq_marked hm hhere
        intro child hchild below hbelow hnew
        exact ih child.depth hchild child hbelow hnew (by omega) rfl
      obtain ⟨n, rfl⟩ : ∃ n, limit = n + 1 := ⟨limit - 1, by omega⟩
      rcases hm.match_cases frame value hext hvisited with ⟨hnone, hmark⟩ | ⟨e, hsome, hnone⟩
      · rw [evaluateNode_of_match_none hnone, hmark, Metadata.extended_empty]
        exact hdescend n (by omega) frame hext
      · -- The second call finds the extension visited and goes down.
        obtain ⟨k, rfl⟩ : ∃ k, n = k + 1 := ⟨n - 1, by omega⟩
        have hagain : ((frame.visit e).overridden
            { metadata := mark frame.position }).match? catalogue value = none := hnone
        rw [result_evaluateNode_of_reparse hsome, evaluateNode_of_match_none hagain]
        exact hdescend k (by omega) _ hext

/-- Evaluation under extensions that only mark succeeds, with the marked tree. -/
theorem result_evaluate_eq_marked {setting : Setting ι} {ev : Evaluator ι}
    (hm : OnlyMarks setting.catalogue ev.extensions mark) (raw : Json) (source : Source)
    (hlimit : 2 * (raw.depth + 1) ≤ setting.limit) :
    (ev.evaluate setting raw source).result =
      .ok (Node.marked mark source (ev.metadata.extended (mark .root)) raw) :=
  result_evaluateNode_eq_marked hm raw rfl rfl hlimit

/-! ### Lists that only mark -/

theorem onlyMarks_nil (catalogue : Catalogue ι) : OnlyMarks catalogue [] fun _ => .empty where
  match_cases frame value hext _ := .inl ⟨by simp [Frame.match?, hext], rfl⟩
  keeps _ := by decide

theorem match?_of_singleton {frame : Frame ι} {e : ι} (hext : frame.extensions = [e])
    (hvisited : frame.visited = []) (value : Json) :
    frame.match? catalogue value =
      ((catalogue e).applies value frame.position frame.ancestors frame.context).map
        fun transform => (e, transform) := by
  simp [Frame.match?, Frame.hasVisited, hext, hvisited]

/-- The only extension of a list does not match a second time. -/
theorem match?_visit_of_singleton {frame : Frame ι} {e : ι} (hext : frame.extensions = [e])
    (value : Json) : (frame.visit e).match? catalogue value = none := by
  simp [Frame.match?, Frame.hasVisited, Frame.visit, Frame.sameExtension, hext]

theorem onlyMarks_markAll {e : ι} {metadata : Metadata} (he : catalogue e = .markAll metadata)
    (hkeeps : ObjectStep.keeps (Metadata.empty.extended metadata) = true) :
    OnlyMarks catalogue [e] fun position => if position = .root then .empty else metadata where
  match_cases frame value hext hvisited := by
    rw [match?_of_singleton hext hvisited, he]
    by_cases hroot : frame.position = .root
    · exact .inl ⟨by simp [Extension.markAll, hroot], if_pos hroot⟩
    · refine .inr ⟨e, ?_, match?_visit_of_singleton hext value⟩
      simp [Extension.markAll, hroot]
  keeps position := by
    by_cases hroot : position = .root
    · rw [if_pos hroot]
      decide
    · rwa [if_neg hroot]

/-- What unescaping lays over the node at a position. -/
def unescapingMark (marker : String) (position : Position) : Metadata :=
  (position.key?.bind (Marker.literal? marker)).elim .empty Extension.unescapedMetadata

theorem onlyMarks_unescapeDirectives {e : ι} {marker : String}
    (he : catalogue e = .unescapeDirectives marker) :
    OnlyMarks catalogue [e] (unescapingMark marker) where
  match_cases frame value hext hvisited := by
    rw [match?_of_singleton hext hvisited, he, unescapingMark]
    cases hname : frame.position.key?.bind (Marker.literal? marker) with
    | none =>
        exact .inl ⟨by simp only [Extension.unescapeDirectives, hname, Option.map_none], rfl⟩
    | some name =>
        refine .inr ⟨e, ?_, match?_visit_of_singleton hext value⟩
        simp only [Extension.unescapeDirectives, hname, Option.map_some, Option.elim_some]
  keeps position := by
    rw [unescapingMark]
    cases position.key?.bind (Marker.literal? marker) with
    | none => decide
    | some name => rfl

end

end LayeredConfig
