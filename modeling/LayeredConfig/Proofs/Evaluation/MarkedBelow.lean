import LayeredConfig.Proofs.Evaluation.MarkedRoot
import LayeredConfig.Proofs.Merge.Covering

/-!
# Below the root everything is marked

Marking is tried first at every child, before anything else has matched there, and what comes after
it at the same node leaves its keys alone. From there on the mark stays as it is: it is no
instruction, so taking the instructions off does not touch it, and where marked nodes are merged its
values are laid over themselves (`Metadata.Carries.merged`). So every node strictly below the root
of a marked layer holds exactly the mark under the keys of the mark, whatever the directives between
made of its members (`Evaluator.marked_below`).
-/

namespace LayeredConfig

namespace Members

variable {α : Type}

/-- A map can be searched from either end. -/
theorem get?_reverse {ms : Members α} (h : ms.Distinct) (key : String) :
    get? key ms.reverse = get? key ms := by
  rw [← get?_ofList, ofList_eq_self h]

end Members

namespace Metadata

variable {m mark lower upper : Metadata}

/-- The metadata holds the mark: under the keys of the mark it holds what the mark holds. -/
structure Carries (m mark : Metadata) : Prop where
  distinct : m.entries.Distinct
  get?_eq : ∀ key, mark.Holds key → m.get? key = mark.get? key

theorem exists_get? {key : String} (h : m.Holds key) : ∃ v, m.get? key = some v :=
  Members.exists_get? h

/-- Values of the mark that are laid over themselves stay as they are. -/
theorem Carries.merged (hmark : (Json.object mark.entries).Distinct) (hl : lower.Carries mark)
    (hu : upper.Carries mark) : (lower.merged upper).Carries mark where
  distinct := Json.distinct_overlayMembers hl.distinct _
  get?_eq key hkey := by
    obtain ⟨v, hv⟩ := exists_get? hkey
    have hvalue : v.Distinct := hmark.member (Members.mem_of_get?_eq_some hv)
    rw [get?_merged hu.distinct, hl.get?_eq key hkey, hu.get?_eq key hkey, hv,
      Option.merge_some_some, Json.overlay_self ⟨v, hvalue⟩]

/-- The mark goes over whatever is there. -/
theorem Carries.extended (hm : m.entries.Distinct) (hu : upper.Carries mark) :
    (m.extended upper).Carries mark where
  distinct := hm.extend
  get?_eq key hkey := by
    obtain ⟨v, hv⟩ := exists_get? hkey
    have hupper : Members.get? key upper.entries = some v := (hu.get?_eq key hkey).trans hv
    rw [get?, Metadata.extended, Members.get?_extend, Members.get?_reverse hu.distinct, hupper, hv,
      Option.some_or]

/-- What does not touch the keys of the mark can go over it. -/
theorem Carries.extended_of_not_holds (hm : m.Carries mark)
    (hu : ∀ key, mark.Holds key → ¬ upper.Holds key) : (m.extended upper).Carries mark where
  distinct := hm.distinct.extend
  get?_eq key hkey := by
    have hnone : Members.get? key upper.entries.reverse = none := by
      rw [Members.get?_eq_none_iff, Members.keys, List.map_reverse, List.mem_reverse]
      exact hu key hkey
    rw [get?, Metadata.extended, Members.get?_extend, hnone, Option.none_or]
    exact hm.get?_eq key hkey

theorem Carries.withoutInstructions (hplain : ∀ key, mark.Holds key → key ∉ instructions)
    (hm : m.Carries mark) : m.withoutInstructions.Carries mark where
  distinct := distinct_withoutInstructions hm.distinct
  get?_eq key hkey := by
    rw [Metadata.withoutInstructions, get?_foldl_erase_of_not_mem (hplain key hkey)]
    exact hm.get?_eq key hkey

theorem carries_self (hmark : (Json.object mark.entries).Distinct) : mark.Carries mark :=
  ⟨hmark.members, fun _ _ => rfl⟩

end Metadata

/-! ### Objects -/

namespace Node

variable {mark : Metadata} {n lower upper : Node}

/-- Every node below the root holds the mark. -/
def MarkedBelow (mark : Metadata) (n : Node) : Prop :=
  ∀ child ∈ n.children, child.Everywhere fun m => m.metadata.Carries mark

theorem everywhere_carries_iff :
    (n.Everywhere fun m => m.metadata.Carries mark) ↔
      n.metadata.Carries mark ∧ n.MarkedBelow mark :=
  everywhere_iff

@[simp] theorem markedBelow_withMetadata {metadata : Metadata} :
    (n.withMetadata metadata).MarkedBelow mark ↔ n.MarkedBelow mark := by
  rw [MarkedBelow, children_withMetadata, MarkedBelow]

theorem MarkedBelow.merge (hmark : (Json.object mark.entries).Distinct)
    (hl : lower.MarkedBelow mark)
    (hu : upper.MarkedBelow mark) : (Node.merge lower upper).MarkedBelow mark := by
  cases hobj : lower.isObject && upper.isObject with
  | false =>
      rw [merge_of_not_object hobj]
      exact markedBelow_withMetadata.2 hu
  | true =>
      obtain ⟨label, members, label', others, rfl, rfl⟩ := exists_objects hobj
      rw [merge_object]
      refine List.forall_mem_map.2 fun entry hentry => ?_
      have hmembers := List.forall_mem_map.1 hl
      have hothers := List.forall_mem_map.1 hu
      rcases mem_mergeMembers hentry with h | h | ⟨v, w, hv, hw, heq⟩
      · exact hmembers entry h
      · exact hothers entry h
      · rw [heq]
        refine Everywhere.merge (fun a b ha hb => ?_) (hmembers _ hv) (hothers _ hw)
        rw [metadata_merge]
        exact ha.merged hmark hb

end Node

namespace ObjectStep

variable {path : String} {label : Label} {members : List (String × Node)} {node : Node}
  {mark : Metadata}

/-- What an object of marked members comes to is marked below its root, and at its root if its label
is. -/
theorem marked_of_result_run (hmark : (Json.object mark.entries).Distinct)
    (hplain : ∀ key, mark.Holds key → key ∉ Metadata.instructions)
    (hmembers : ∀ entry ∈ members, entry.2.Everywhere fun m => m.metadata.Carries mark)
    (hok : (run path label members).result = .ok node) :
    (label.metadata.Carries mark → node.metadata.Carries mark) ∧ node.MarkedBelow mark := by
  have hwithout : ∀ entry ∈ members, entry.2.withoutInstructions.metadata.Carries mark ∧
      entry.2.withoutInstructions.MarkedBelow mark := by
    intro entry hentry
    obtain ⟨hroot, hbelow⟩ := Node.everywhere_carries_iff.1 (hmembers entry hentry)
    rw [Node.metadata_withoutInstructions]
    exact ⟨hroot.withoutInstructions hplain, Node.markedBelow_withMetadata.2 hbelow⟩
  refine of_result_run (Q := fun n =>
    (label.metadata.Carries mark → n.metadata.Carries mark) ∧ n.MarkedBelow mark)
    (fun lower upper hlower hupper => ⟨fun hlabel => ?_, hlower.2.merge hmark hupper.2⟩)
    (fun n hn => ⟨fun hlabel => ?_, Node.markedBelow_withMetadata.2 hn.2⟩)
    ⟨id, List.forall_mem_map.2 fun kept hkept => ?_⟩
    (fun entry hentry => ⟨fun _ => (hwithout entry hentry).1, (hwithout entry hentry).2⟩) hok
  · rw [Node.metadata_merge]
    exact (hlower.1 hlabel).merged hmark (hupper.1 hlabel)
  · rw [Node.metadata_addMetadata]
    exact hlabel.extended (hn.1 hlabel).distinct
  · refine forall_mem_kept (Q := fun n => n.Everywhere fun m => m.metadata.Carries mark)
      (fun entry hentry => ⟨hmembers entry hentry, ?_⟩) kept (Members.mem_ofList hkept)
    exact Node.everywhere_carries_iff.2 (hwithout entry hentry)

end ObjectStep

/-! ### Evaluations -/

/-- A frame of a node below the root at which nothing has matched yet. -/
structure Frame.Fresh {ι : Type} (frame : Frame ι) : Prop where
  position : frame.position ≠ .root
  visited : frame.visited = []
  distinct : frame.metadata.entries.Distinct

section

variable {ι : Type} [DecidableEq ι] {catalogue : Catalogue ι} {e d : ι} {others : List ι}
  {mark : Metadata} {call inner : Call ι}

theorem Call.Enters.fresh (h : Call.Enters catalogue call inner) : inner.frame.Fresh := by
  cases h <;> exact ⟨nofun, rfl, List.nodup_nil⟩

/-- Marking is the first to match at a fresh frame. -/
theorem Frame.Fresh.match?_eq {frame : Frame ι} (h : frame.Fresh)
    (he : catalogue e = .markAll mark) (hext : frame.extensions = e :: others) (value : Json) :
    frame.match? catalogue value = some (e, Extension.reparse value mark) := by
  refine match?_eq_some_iff.2 ⟨[], others, hext, ?_, ?_, nofun⟩
  · rw [h.visited]
    exact nofun
  · rw [he]
    exact if_neg h.position

variable (he : catalogue e = .markAll mark)
  (hothers : ∀ d ∈ others, (catalogue d).Programs (Program.Forwards mark))
include he hothers

/-- A value that is evaluated again at a fresh node, or at one that is marked already, is evaluated
under the mark. -/
theorem Call.Reenters.carries (hmark : (Json.object mark.entries).Distinct)
    (h : Call.Reenters catalogue call d inner) (hext : call.frame.extensions = e :: others)
    (hcall : call.frame.metadata.Carries mark ∨ call.frame.Fresh) :
    inner.frame.metadata.Carries mark := by
  have hdistinct : call.frame.metadata.entries.Distinct :=
    hcall.elim Metadata.Carries.distinct Frame.Fresh.distinct
  have hmem := h.mem_extensions
  obtain @⟨frame, value, v, _, transform, overrides, hmatch, hasks⟩ := h
  rw [hext] at hmem
  rw [Frame.overridden]
  by_cases hd : d = e
  · -- The marking itself lays its mark over what is there.
    obtain ⟨-, -, -, -, happlies, -⟩ := match?_eq_some_iff.1 hmatch
    rw [hd, he] at happlies
    obtain ⟨-, htransform⟩ := Option.ite_none_left_eq_some.1 happlies
    obtain rfl := Option.some.inj htransform
    obtain ⟨-, rfl⟩ := Program.asks_evaluate.1 hasks
    exact (Metadata.carries_self hmark).extended hdistinct
  · -- Something else matched, so the node is no fresh one, and the mark is left alone.
    have hforwards := hothers d ((List.mem_cons.1 hmem).resolve_left hd)
    have hcarries : frame.metadata.Carries mark := by
      refine hcall.resolve_right fun hfresh => hd ?_
      have hfirst := hfresh.match?_eq he hext value
      rw [hmatch] at hfirst
      exact congrArg Prod.fst (Option.some.inj hfirst)
    cases hupper : overrides.metadata with
    | none => exact hcarries
    | some upper =>
        exact hcarries.extended_of_not_holds fun key hkey =>
          (hforwards.of_match? hmatch).metadata v overrides hasks upper hupper key hkey

/-- Every step of an evaluation keeps what is below marked, and marks the node of a fresh frame. -/
theorem Call.invariant_markedBelow (hmark : (Json.object mark.entries).Distinct)
    (hplain : ∀ key, mark.Holds key → key ∉ Metadata.instructions) :
    Call.Invariant catalogue fun call node => call.frame.extensions = e :: others →
      ((call.frame.metadata.Carries mark ∨ call.frame.Fresh) → node.metadata.Carries mark) ∧
        node.MarkedBelow mark where
  leaf frame value hnone _ hext := by
    refine ⟨fun h => h.resolve_right fun hfresh => ?_, nofun⟩
    rw [hfresh.match?_eq he hext] at hnone
    cases hnone
  array frame items children hnone hchildren hext := by
    refine ⟨fun h => h.resolve_right fun hfresh => ?_, fun child hchild => ?_⟩
    · rw [hfresh.match?_eq he hext] at hnone
      cases hnone
    · obtain ⟨inner, henters, hinner⟩ := hchildren child hchild
      obtain ⟨hroot, hbelow⟩ := hinner (henters.extensions_eq.trans hext)
      exact Node.everywhere_carries_iff.2 ⟨hroot (.inr henters.fresh), hbelow⟩
  object frame members children node hnone hchildren hok hext := by
    have hmarked : ∀ entry ∈ children, entry.2.Everywhere fun m => m.metadata.Carries mark := by
      intro entry hentry
      obtain ⟨inner, henters, hinner⟩ := hchildren entry hentry
      obtain ⟨hroot, hbelow⟩ := hinner (henters.extensions_eq.trans hext)
      exact Node.everywhere_carries_iff.2 ⟨hroot (.inr henters.fresh), hbelow⟩
    obtain ⟨hroot, hbelow⟩ := ObjectStep.marked_of_result_run hmark hplain hmarked hok
    refine ⟨fun h => hroot (h.resolve_right fun hfresh => ?_), hbelow⟩
    rw [hfresh.match?_eq he hext] at hnone
    cases hnone
  again frame value d transform trees node hmatch hanswers htrees hext := by
    have hd : d ∈ e :: others := hext ▸ mem_extensions_of_match? hmatch
    have hforwards := forwards_of_markAll he hothers d hd
    have hnode := (hforwards.of_match? hmatch).answers trees node hanswers
    obtain ⟨inner, hreenters, hinner⟩ := htrees node hnode
    obtain ⟨hroot, hbelow⟩ := hinner ((hreenters.extensions_eq hforwards).trans hext)
    exact ⟨fun h => hroot (.inl (hreenters.carries he hothers hmark hext h)), hbelow⟩

end

namespace Evaluator

/-- Where marking comes first and directives follow that hand on what one of their evaluations gave,
every node strictly below the root of a tree holds what the mark holds under its keys. -/
theorem marked_below {ι : Type} [DecidableEq ι] {catalogue : Catalogue ι} {e : ι} {others : List ι}
    {mark : Metadata} (he : catalogue e = .markAll mark)
    (hothers : ∀ d ∈ others, (catalogue d).Programs (Program.Forwards mark))
    (hmark : (Json.object mark.entries).Distinct)
    (hplain : ∀ key, mark.Holds key → key ∉ Metadata.instructions) {ev : Evaluator ι}
    (hext : ev.extensions = e :: others) {raw : Json} {source : Source} {limit : Nat} {tree : Node}
    (hok : (ev.evaluateWithin catalogue limit raw source).result = .ok tree) :
    ∀ child ∈ tree.children, child.Everywhere fun n =>
      ∀ key, mark.Holds key → n.metadata.get? key = mark.get? key := by
  let root : Call ι := ⟨ev.rootFrame raw source, raw⟩
  obtain ⟨-, hbelow⟩ :=
    (Call.invariant_markedBelow he hothers hmark hplain).of_result root hok hext
  exact fun child hchild => (hbelow child hchild).mono fun n hn => hn.get?_eq

/-- A mark with a value that combines when nodes are merged. -/
def originMark : Metadata :=
  ⟨[("origin", .object [("layer", .ofInt 1)]), (Metadata.fromSecrets, .bool true)]⟩

/-- Marking before directives that move what they hold, each by one of the instructions. -/
def moving : Catalogue (Fin 5)
  | 0 => .markAll originMark
  | 1 => directive "$flat" Metadata.shouldFlatten (.bool true)
  | 2 => directive "$under" Metadata.shouldMerge (.bool true)
  | 3 => directive "$over" Metadata.shouldOverride (.bool true)
  | 4 => directive "$as" Metadata.renameKey (.string "name")
where
  directive (name instruction : String) (value : Json) : Extension (Fin 5) :=
    .keyDirective name fun v _ => .evaluate v { metadata := some ⟨[(instruction, value)]⟩ }

/-- Members that are flattened, merged, overridden and renamed, at the root and below it. -/
def movingDocument : Json :=
  .object [("db", .object [("port", .ofInt 1), ("tls", .object [("on", .bool true)])]),
    ("$over", .object [("db", .object [("tls", .object [("$as", .ofInt 3)])]),
      ("list", .array [.object [("$flat", .object [("a", .null)])]])]),
    ("$under", .object [("db", .object [("port", .ofInt 9), ("user", .string "u")])])]

theorem marked_below_moving :
    moving 0 = .markAll originMark ∧
    (∀ d ∈ [1, 2, 3, 4], (moving d).Programs (Program.Forwards originMark)) ∧
    (Json.object originMark.entries).Distinct ∧
    (∀ key, originMark.Holds key → key ∉ Metadata.instructions) ∧
    ∃ tree, ((Evaluator.mk [0, 1, 2, 3, 4] .empty .empty).evaluateWithin moving 16 movingDocument
        (.literal 0 .null)).result = .ok tree ∧
      tree.toJson = .object [("db", .object [("port", .ofInt 1), ("user", .string "u"),
          ("tls", .object [("on", .bool true), ("name", .ofInt 3)])]),
        ("list", .array [.object [("a", .null)]])] ∧
      ∀ child ∈ tree.children, child.Everywhere fun n =>
        ∀ key, originMark.Holds key → n.metadata.get? key = originMark.get? key := by
  have hothers : ∀ d ∈ [1, 2, 3, 4], (moving d).Programs (Program.Forwards originMark) := by
    have hdirective : ∀ name instruction value, ¬ originMark.Holds instruction →
        (moving.directive name instruction value).Programs (Program.Forwards originMark) := by
      intro name instruction value hnot
      refine Extension.programs_keyDirective fun v _ => ?_
      refine Program.forwards_evaluate v fun key hkey => ?_
      rintro hheld
      obtain rfl : key = instruction := List.mem_singleton.1 hheld
      exact hnot hkey
    rw [List.forall_mem_cons, List.forall_mem_cons, List.forall_mem_cons, List.forall_mem_singleton]
    exact ⟨hdirective _ _ _ (by decide), hdirective _ _ _ (by decide), hdirective _ _ _ (by decide),
      hdirective _ _ _ (by decide)⟩
  have hmark : (Json.object originMark.entries).Distinct := by decide
  have hplain : ∀ key, originMark.Holds key → key ∉ Metadata.instructions := by
    have hkeys : ∀ key ∈ originMark.entries.keys, key ∉ Metadata.instructions := by decide
    exact hkeys
  obtain ⟨tree, hok, hvalue⟩ : ∃ tree, ((Evaluator.mk [0, 1, 2, 3, 4] .empty .empty).evaluateWithin
      moving 16 movingDocument (.literal 0 .null)).result = .ok tree ∧
        tree.toJson = .object [("db", .object [("port", .ofInt 1), ("user", .string "u"),
            ("tls", .object [("on", .bool true), ("name", .ofInt 3)])]),
          ("list", .array [.object [("a", .null)]])] := ⟨_, rfl, by decide⟩
  have hfirst : moving 0 = .markAll originMark := rfl
  exact ⟨hfirst, hothers, hmark, hplain, tree, hok, hvalue,
    marked_below hfirst hothers hmark hplain rfl hok⟩

end Evaluator

end LayeredConfig
