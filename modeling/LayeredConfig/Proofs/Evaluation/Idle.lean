import LayeredConfig.Proofs.Evaluation.Calls
import LayeredConfig.Proofs.Members.Listed
import LayeredConfig.Proofs.Node.Everywhere

/-!
# Evaluation with nothing to do

A value that no active extension applies to anywhere is wrapped as it stands: the evaluation is done
at once, without an event, and its tree is the literal tree of the value, but for the metadata that
the root was given (`Evaluator.evaluateWithin_of_idle`). The induction is on the value and carries
the stack of positions along, because that is what extensions are asked about; a directive that is
bound to a key has nothing to do where no object holds the key (`idle_keyDirective`).
-/

namespace LayeredConfig

/-! ### Runs that are done at once -/

theorem besideItems_eq_pure {f : Nat → Json → Run Node} {g : Json → Node} (index : Nat)
    {items : List Json}
    (h : ∀ i item, items[i]? = some item → f (index + i) item = pure (g item)) :
    besideItems f index items = pure (items.map g) := by
  induction items generalizing index with
  | nil => rw [besideItems, List.map_nil]
  | cons first rest ih =>
      have hrest : besideItems f (index + 1) rest = pure (rest.map g) := by
        refine ih (index + 1) fun i item hitem => ?_
        rw [show index + 1 + i = index + (i + 1) by omega]
        exact h (i + 1) item hitem
      have hfirst := h 0 first rfl
      rw [Nat.add_zero] at hfirst
      rw [besideItems, hfirst, hrest, Run.beside_pure, List.map_cons]

theorem besideMembers_eq_pure {f : String → Json → Run Node} {g : Json → Node}
    {members : List (String × Json)}
    (h : ∀ entry ∈ members, f entry.1 entry.2 = pure (g entry.2)) :
    besideMembers f members = pure (Members.mapValues g members) := by
  induction members with
  | nil => rw [besideMembers, Members.mapValues_nil]
  | cons first rest ih =>
      obtain ⟨hfirst, hrest⟩ := List.forall_mem_cons.1 h
      rw [besideMembers, hfirst, ih hrest, Run.pure_bind, Run.beside_pure, Members.mapValues_cons]

namespace ObjectStep

/-- Members without metadata are kept, and nothing is reported. -/
theorem placeAll_of_no_metadata (path : String) (groups : Groups) {members : List (String × Node)}
    (h : ∀ entry ∈ members, entry.2.metadata = .empty) :
    placeAll path groups members = .ok { groups with kept := groups.kept.extend members } := by
  induction members generalizing groups with
  | nil => rfl
  | cons entry rest ih =>
      obtain ⟨hentry, hrest⟩ := List.forall_mem_cons.1 h
      have hplace : place path groups entry.1 entry.2 =
          .ok { groups with kept := groups.kept.insert entry.1 entry.2 } := by
        rw [place, roleOf_of_no_metadata hentry]
      rw [placeAll, hplace]
      exact ih _ hrest

theorem run_of_no_metadata (path : String) (label : Label) {members : List (String × Node)}
    (hd : Members.Distinct members) (h : ∀ entry ∈ members, entry.2.metadata = .empty) :
    run path label members = .ok (.object label members) := by
  rw [run, placeAll_of_no_metadata path {} h]
  change Logged.ok (Node.object label (Members.ofList members)) = _
  rw [Members.ofList_eq_self hd]

end ObjectStep

/-! ### Extensions with nothing to do -/

variable {ι : Type} {catalogue : Catalogue ι} {extensions : List ι} {context : Context}

/-- None of the extensions applies to the value, which stands at the last of the positions, or to a
value inside it. -/
def Idle (catalogue : Catalogue ι) (extensions : List ι) (context : Context)
    (positions : List Position) (v : Json) : Prop :=
  ∀ e ∈ extensions, ∀ path w, v.Leads path w → ∀ above position,
    positions ++ path = above ++ [position] →
      (catalogue e).applies w position above context = none

theorem Idle.item {positions : List Position} {items : List Json}
    (h : Idle catalogue extensions context positions (.array items)) {index : Nat} {item : Json}
    (hitem : items[index]? = some item) :
    Idle catalogue extensions context (positions ++ [.index index]) item := by
  intro e he path w hw above position hpath
  refine h e he _ w (.item hitem hw) above position ?_
  rw [← hpath, List.append_assoc, List.singleton_append]

theorem Idle.member {positions : List Position} {members : List (String × Json)}
    (h : Idle catalogue extensions context positions (.object members)) {entry : String × Json}
    (hentry : entry ∈ members) :
    Idle catalogue extensions context (positions ++ [.key entry.1]) entry.2 := by
  intro e he path w hw above position hpath
  refine h e he _ w (.member hentry hw) above position ?_
  rw [← hpath, List.append_assoc, List.singleton_append]

/-- Directives that are bound to keys have nothing to do where no object holds one of the keys. -/
theorem idle_keyDirective {raw : Json} (h : ∀ e ∈ extensions, ∃ name handler,
    catalogue e = .keyDirective name handler ∧ raw.Everywhere fun part => name ∉ part.keys) :
    Idle catalogue extensions context [.root] raw := by
  intro e he path w hw above position hpath
  obtain ⟨name, handler, heq, hraw⟩ := h e he
  have hlast := congrArg List.getLast? hpath
  rw [List.singleton_append, List.getLast?_cons, List.getLast?_concat] at hlast
  have hkey : position.isKey name ≠ true := by
    intro hkey
    rw [Position.isKey_iff.1 hkey] at hlast
    have hne := hw.getLast?_ne_key hraw
    cases hend : path.getLast? with
    | none => simp [hend] at hlast
    | some last =>
        rw [hend] at hlast hne
        exact hne hlast
  rw [heq]
  exact if_neg hkey

/-! ### Evaluation -/

variable [DecidableEq ι]

theorem match?_of_idle {frame : Frame ι} {v : Json}
    (h : Idle catalogue frame.extensions frame.context frame.positions v) :
    frame.match? catalogue v = none := by
  rw [Frame.match?, List.findSome?_eq_none_iff]
  intro e he
  have hnone := h e (List.mem_filter.1 he).1 [] v (.here v) frame.ancestors frame.position
    (List.append_nil _)
  rw [hnone, Option.map_none]

/-- Evaluation of a value that no extension applies to, with one call for every level. -/
theorem evaluateNode_of_idle {v : Json} (hv : v.Distinct) {limit : Nat} {frame : Frame ι}
    (h : Idle catalogue frame.extensions frame.context frame.positions v)
    (hlimit : v.depth < limit) :
    evaluateNode catalogue limit frame v =
      pure ((Node.literal frame.source .empty v).withMetadata frame.metadata) := by
  -- The frame of a child has no metadata, so the tree of a child is its literal tree as it stands.
  induction v using Json.induct generalizing limit frame with
  | array items ih =>
      obtain ⟨n, rfl⟩ : ∃ n, limit = n + 1 := ⟨limit - 1, by omega⟩
      have hitems : besideItems (fun i => evaluateNode catalogue n
          (frame.child (.index i) (.array items))) 0 items =
            pure (items.map (Node.literal frame.source .empty)) := by
        refine besideItems_eq_pure 0 fun i item hitem => ?_
        have hmem := List.mem_of_getElem? hitem
        have hdepth := Json.depth_le_itemsDepth hmem
        rw [Json.depth] at hlimit
        rw [Nat.zero_add]
        refine (ih item hmem ?_ (h.item hitem) (by omega)).trans ?_
        · cases hv with
          | array hitems => exact hitems item hmem
        · exact congrArg pure (Node.withMetadata_literal_self _ _ _)
      rw [evaluateNode, match?_of_idle h]
      simp only [descend]
      rw [hitems, Run.pure_bind, Node.literal_array]
      rfl
  | object members ih =>
      obtain ⟨n, rfl⟩ : ∃ n, limit = n + 1 := ⟨limit - 1, by omega⟩
      have hmembers : besideMembers (fun key => evaluateNode catalogue n
          (frame.child (.key key) (.object members))) members =
            pure (Members.mapValues (Node.literal frame.source .empty) members) := by
        refine besideMembers_eq_pure fun entry hentry => ?_
        have hdepth := Json.depth_le_membersDepth hentry
        rw [Json.depth] at hlimit
        refine (ih entry hentry (hv.member hentry) (h.member hentry) (by omega)).trans ?_
        exact congrArg pure (Node.withMetadata_literal_self _ _ _)
      have hmetadata : ∀ entry ∈ Members.mapValues (Node.literal frame.source .empty) members,
          entry.2.metadata = .empty := by
        rw [Members.mapValues, List.forall_mem_map]
        exact fun entry _ => (Node.everywhere_metadata_literal _ _ _).root
      rw [evaluateNode, match?_of_idle h]
      simp only [descend]
      rw [hmembers, Run.pure_bind, ObjectStep.run_of_no_metadata _ _
        ((Members.distinct_mapValues _).2 hv.members) hmetadata, Node.literal_object]
      rfl
  | _ =>
      obtain ⟨n, rfl⟩ : ∃ n, limit = n + 1 := ⟨limit - 1, by omega⟩
      rw [evaluateNode, match?_of_idle h, Node.literal_of_isPrimitive _ _ rfl]
      rfl

namespace Evaluator

/-- Evaluating a value that no extension applies to anywhere gives its literal tree at once, under
the metadata of the evaluator at the root, and the value can be read back from it. Without
extensions, the value of any tree can be evaluated and comes out the same. -/
theorem evaluateWithin_of_idle (ev : Evaluator ι) (source : Source) :
    (∀ raw : Json, raw.Distinct → Idle catalogue ev.extensions ev.context [.root] raw →
      ∀ limit, raw.depth < limit →
        ev.evaluateWithin catalogue limit raw source =
          pure ((Node.literal source .empty raw).withMetadata ev.metadata) ∧
        ((Node.literal source .empty raw).withMetadata ev.metadata).toJson = raw) ∧
    (ev.extensions = [] → ∀ tree : Node, tree.toJson.Distinct →
      ∀ limit, tree.toJson.depth < limit →
        ∃ again, ev.evaluateWithin catalogue limit tree.toJson source = pure again ∧
          again.toJson = tree.toJson) := by
  have hwrap : ∀ raw : Json, raw.Distinct → Idle catalogue ev.extensions ev.context [.root] raw →
      ∀ limit, raw.depth < limit →
        ev.evaluateWithin catalogue limit raw source =
          pure ((Node.literal source .empty raw).withMetadata ev.metadata) ∧
        ((Node.literal source .empty raw).withMetadata ev.metadata).toJson = raw := by
    intro raw hraw hidle limit hlimit
    refine ⟨evaluateNode_of_idle hraw hidle hlimit, ?_⟩
    rw [Node.toJson_withMetadata, Node.toJson_literal]
  refine ⟨hwrap, fun hnone tree htree limit hlimit => ?_⟩
  have hidle : Idle catalogue ev.extensions ev.context [.root] tree.toJson := by
    rw [hnone]
    exact nofun
  exact ⟨_, hwrap tree.toJson htree hidle limit hlimit⟩

/-- A directive that always fails. -/
def failing : Catalogue Unit := fun _ =>
  .keyDirective "$fail" fun v _ => .fail (.internal v.render)

/-- A document that names the directive, but not as a key. -/
def plainDocument : Json :=
  .object [("server", .object
      [("tags", .array [.string "$fail", .object []]), ("port", .ofInt 80)]),
    ("fail", .array [])]

theorem evaluateWithin_of_idle_plainDocument :
    plainDocument.Distinct ∧ Idle failing [()] .empty [.root] plainDocument ∧
    plainDocument.depth < 5 ∧
    (Evaluator.mk [()] ⟨[(Metadata.shouldFlatten, .bool true)]⟩ .empty).evaluateWithin failing 5
        plainDocument (.literal 0 .null) =
      pure ((Node.literal (.literal 0 .null) .empty plainDocument).withMetadata
        ⟨[(Metadata.shouldFlatten, .bool true)]⟩) ∧
    ∃ again, (Evaluator.mk [] .empty .empty).evaluateWithin failing 5
        (Node.literal (.literal 0 .null) .empty plainDocument).toJson (.literal 1 .null) =
          pure again ∧
      again.toJson = plainDocument := by
  have hdistinct : plainDocument.Distinct := by decide
  have hidle : Idle failing [()] .empty [.root] plainDocument :=
    idle_keyDirective fun _ _ => ⟨"$fail", _, rfl, by decide⟩
  have hvalue : (Node.literal (.literal 0 .null) .empty plainDocument).toJson = plainDocument :=
    Node.toJson_literal _ _ _
  obtain ⟨hwrap, -⟩ := @evaluateWithin_of_idle Unit failing _
    ⟨[()], ⟨[(Metadata.shouldFlatten, .bool true)]⟩, .empty⟩ (.literal 0 .null)
  obtain ⟨-, hagain⟩ := @evaluateWithin_of_idle Unit failing _ ⟨[], .empty, .empty⟩
    (.literal 1 .null)
  refine ⟨hdistinct, hidle, by decide, (hwrap _ hdistinct hidle 5 (by decide)).1, ?_⟩
  obtain ⟨again, hrun, hsame⟩ := hagain rfl (.literal (.literal 0 .null) .empty plainDocument)
    (hvalue ▸ hdistinct) 5 (hvalue ▸ by decide)
  exact ⟨again, hrun, hsame.trans hvalue⟩

end Evaluator

end LayeredConfig
