import LayeredConfig.Proofs.Evaluation.Outcome
import LayeredConfig.Proofs.Metadata.Combining
import LayeredConfig.Proofs.ObjectStep.Reference

/-!
# Instructions are used up

An instruction in the metadata of a member is meant for the object that holds it, and for that one
only. The object step follows the instructions of its members and takes them off, and what is made
from trees without instructions below their roots has none there either: merging combines the
metadata of members that have been dealt with, and transforms touch the metadata of roots alone, as
long as they answer with trees that were evaluated or taken as they stand (`Node.Assembled`). So no
member of an evaluated tree carries an instruction (`Evaluator.no_instruction_left`).
-/

namespace LayeredConfig

/-! ### Metadata without instructions -/

namespace Metadata

/-- Metadata that asks nothing of an object. -/
structure Uninstructed (m : Metadata) : Prop where
  merge : m.flag shouldMerge = false
  override : m.flag shouldOverride = false
  flatten : m.flag shouldFlatten = false
  rename : m.get? renameKey = none

theorem uninstructed_empty : empty.Uninstructed := ⟨rfl, rfl, rfl, rfl⟩

theorem uninstructed_of_get? {m : Metadata} (h : ∀ key ∈ instructions, m.get? key = none) :
    m.Uninstructed := by
  have hflag : ∀ key ∈ instructions, m.flag key = false := by
    intro key hkey
    rw [flag, h key hkey]
    rfl
  exact ⟨hflag _ (by decide), hflag _ (by decide), hflag _ (by decide), h _ (by decide)⟩

/-- Where both sides ask nothing, combined metadata asks nothing. -/
theorem Uninstructed.merged {lower upper : Metadata} (hl : lower.Uninstructed)
    (hu : upper.Uninstructed) (hd : upper.entries.Distinct) :
    (lower.merged upper).Uninstructed := by
  have hflag : ∀ key, lower.flag key = false → upper.flag key = false →
      (lower.merged upper).flag key = false := by
    intro key hlower hupper
    rw [← Bool.not_eq_true, flag_merged hd, hupper, hlower]
    simp
  refine ⟨hflag _ hl.merge hu.merge, hflag _ hl.override hu.override,
    hflag _ hl.flatten hu.flatten, ?_⟩
  rw [get?_merged hd, hl.rename, hu.rename]
  rfl

end Metadata

theorem ObjectStep.uninstructed_of_keep {metadata : Metadata} (h : requestOf metadata = .keep) :
    metadata.Uninstructed := by
  simp only [requestOf, ← Metadata.flag_eq_true_iff] at h
  by_cases hmerge : metadata.flag Metadata.shouldMerge = true
  · rw [if_pos hmerge] at h
    cases h
  by_cases hoverride : metadata.flag Metadata.shouldOverride = true
  · rw [if_neg hmerge, if_pos hoverride] at h
    cases h
  by_cases hflatten : metadata.flag Metadata.shouldFlatten = true
  · rw [if_neg hmerge, if_neg hoverride, if_pos hflatten] at h
    cases h
  rw [if_neg hmerge, if_neg hoverride, if_neg hflatten] at h
  refine ⟨Bool.eq_false_iff.2 hmerge, Bool.eq_false_iff.2 hoverride, Bool.eq_false_iff.2 hflatten,
    ?_⟩
  cases hrename : metadata.get? Metadata.renameKey with
  | none => rfl
  | some target => rw [hrename] at h; cases h

/-! ### Trees that have been dealt with -/

namespace Node

/-- No member of an object of the tree carries an instruction, and the metadata of members are maps,
so that putting them together brings none back. -/
def Settled (n : Node) : Prop :=
  n.Everywhere fun holder => ∀ entry ∈ holder.members?.getD [],
    entry.2.metadata.Uninstructed ∧ entry.2.metadata.entries.Distinct

theorem settled_leaf (label : Label) (value : Json) : (leaf label value).Settled :=
  everywhere_leaf.2 nofun

theorem settled_array {label : Label} {items : List Node} :
    (array label items).Settled ↔ ∀ item ∈ items, item.Settled :=
  everywhere_array.trans (and_iff_right nofun)

theorem settled_object {label : Label} {members : List (String × Node)} :
    (object label members).Settled ↔
      (∀ entry ∈ members, entry.2.metadata.Uninstructed ∧ entry.2.metadata.entries.Distinct) ∧
        ∀ entry ∈ members, entry.2.Settled :=
  everywhere_object

/-- The metadata of the root may ask for anything. -/
@[simp] theorem settled_withMetadata {n : Node} {metadata : Metadata} :
    (n.withMetadata metadata).Settled ↔ n.Settled := by
  rw [Settled, Settled, everywhere_iff, everywhere_iff (n := n), members?_withMetadata,
    children_withMetadata]

theorem settled_literal (source : Source) (v : Json) : (literal source .empty v).Settled := by
  induction v using Json.induct with
  | array items ih =>
      rw [literal_array, settled_array, List.forall_mem_map]
      exact ih
  | object members ih =>
      rw [literal_object, settled_object, Members.mapValues, List.forall_mem_map,
        List.forall_mem_map]
      refine ⟨fun entry _ => ?_, ih⟩
      rw [(everywhere_metadata_literal source .empty entry.2).root]
      exact ⟨Metadata.uninstructed_empty, List.nodup_nil⟩
  | _ => rw [literal_of_isPrimitive _ _ rfl]; exact settled_leaf _ _

theorem Settled.merge {lower upper : Node} (hl : lower.Settled) (hu : upper.Settled) :
    (Node.merge lower upper).Settled := by
  refine Everywhere.merge (fun a b ha hb => ?_) hl hu
  cases hobj : a.isObject && b.isObject with
  | false => rwa [merge_of_not_object hobj, members?_withMetadata]
  | true =>
      obtain ⟨label, members, label', others, rfl, rfl⟩ := exists_objects hobj
      rw [merge_object]
      intro entry hentry
      rcases mem_mergeMembers hentry with h | h | ⟨v, w, hv, hw, heq⟩
      · exact ha entry h
      · exact hb entry h
      · obtain ⟨hlower, hdistinct⟩ := ha _ hv
        obtain ⟨hupper, hdistinct'⟩ := hb _ hw
        rw [heq, metadata_merge]
        exact ⟨hlower.merged hupper hdistinct', Json.distinct_overlayMembers hdistinct _⟩

/-! ### What transforms answer with -/

/-- The trees that can be made from given trees and from values as they stand, by merging and by
changing the metadata of a root. -/
inductive Assembled (given : List Node) : Node → Prop
  | given {n : Node} : n ∈ given → Assembled given n
  | literal (source : Source) (v : Json) : Assembled given (.literal source .empty v)
  | merge {lower upper : Node} :
      Assembled given lower → Assembled given upper → Assembled given (lower.merge upper)
  | addMetadata {n : Node} (upper : Metadata) :
      Assembled given n → Assembled given (n.addMetadata upper)
  | dropMetadata {n : Node} (key : String) :
      Assembled given n → Assembled given (n.dropMetadata key)

theorem Assembled.mergeAll {given layers : List Node} {folded : Node}
    (h : ∀ layer ∈ layers, Assembled given layer) (hfold : Node.mergeAll layers = some folded) :
    Assembled given folded :=
  of_mergeAll h (fun _ hlower layer hlayer => .merge hlower (h layer hlayer)) hfold

theorem Assembled.settled {given : List Node} {n : Node} (h : Assembled given n)
    (hgiven : ∀ tree ∈ given, tree.Settled) : n.Settled := by
  induction h with
  | given hmem => exact hgiven _ hmem
  | literal source v => exact settled_literal source v
  | merge _ _ hlower hupper => exact hlower.merge hupper
  | addMetadata upper _ ih => exact settled_withMetadata.2 ih
  | dropMetadata key _ ih => exact settled_withMetadata.2 ih

theorem Assembled.distinct_metadata {given : List Node} {n : Node} (h : Assembled given n)
    (hgiven : ∀ tree ∈ given, tree.metadata.entries.Distinct) : n.metadata.entries.Distinct := by
  induction h with
  | given hmem => exact hgiven _ hmem
  | literal source v =>
      rw [(everywhere_metadata_literal source .empty v).root]
      exact List.nodup_nil
  | merge _ _ hlower _ =>
      rw [metadata_merge]
      exact Json.distinct_overlayMembers hlower _
  | addMetadata upper _ ih =>
      rw [metadata_addMetadata]
      exact Members.Distinct.extend ih
  | dropMetadata key _ ih =>
      rw [metadata_dropMetadata]
      exact Members.Distinct.erase ih

end Node

/-! ### Objects -/

namespace ObjectStep

variable {path : String} {label : Label} {members : List (String × Node)} {node : Node}

/-- A member that is filed as kept asks for nothing any more. -/
theorem settled_of_keptMember? {entry kept : String × Node} (hs : entry.2.Settled)
    (hd : entry.2.metadata.entries.Distinct) (h : keptMember? entry = some kept) :
    (kept.2.metadata.Uninstructed ∧ kept.2.metadata.entries.Distinct) ∧ kept.2.Settled := by
  unfold keptMember? at h
  split at h
  · next hkeep =>
    obtain rfl := Option.some.inj h
    exact ⟨⟨uninstructed_of_keep hkeep, hd⟩, hs⟩
  · obtain rfl := Option.some.inj h
    rw [Node.metadata_withoutInstructions]
    refine ⟨⟨?_, Metadata.distinct_withoutInstructions hd⟩, Node.settled_withMetadata.2 hs⟩
    exact Metadata.uninstructed_of_get? fun key => Metadata.get?_withoutInstructions hd
  · cases h

/-- An object that is put together from members whose own members have been dealt with has its
members dealt with, however they are combined. -/
theorem settled_of_result_run (hsettled : ∀ entry ∈ members, entry.2.Settled)
    (hdistinct : ∀ entry ∈ members, entry.2.metadata.entries.Distinct)
    (hok : (run path label members).result = .ok node) : node.Settled := by
  have hkept : ∀ kept ∈ Members.ofList (members.filterMap keptMember?),
      (kept.2.metadata.Uninstructed ∧ kept.2.metadata.entries.Distinct) ∧ kept.2.Settled := by
    intro kept hkept
    obtain ⟨entry, hentry, heq⟩ := List.mem_filterMap.1 (Members.mem_ofList hkept)
    exact settled_of_keptMember? (hsettled entry hentry) (hdistinct entry hentry) heq
  refine of_result_run (Q := Node.Settled) (fun _ _ => Node.Settled.merge)
    (fun _ => Node.settled_withMetadata.2) ?_ (fun entry hentry => ?_) hok
  · exact Node.settled_object.2 ⟨fun kept h => (hkept kept h).1, fun kept h => (hkept kept h).2⟩
  · exact Node.settled_withMetadata.2 (hsettled entry hentry)

theorem distinct_metadata_of_result_run
    (hdistinct : ∀ entry ∈ members, entry.2.metadata.entries.Distinct)
    (hlabel : label.metadata.entries.Distinct)
    (hok : (run path label members).result = .ok node) : node.metadata.entries.Distinct := by
  refine of_result_run (Q := fun n => n.metadata.entries.Distinct) (fun lower upper hlower _ => ?_)
    (fun n hn => ?_) hlabel (fun entry hentry => ?_) hok
  · rw [Node.metadata_merge]
    exact Json.distinct_overlayMembers hlower _
  · rw [Node.metadata_addMetadata]
    exact Members.Distinct.extend hn
  · rw [Node.metadata_withoutInstructions]
    exact Metadata.distinct_withoutInstructions (hdistinct entry hentry)

end ObjectStep

/-! ### Evaluations -/

variable {ι : Type} [DecidableEq ι] {catalogue : Catalogue ι} {extensions : List ι}

theorem Call.Reenters.distinct_metadata {call inner : Call ι} {e : ι}
    (h : Call.Reenters catalogue call e inner) (hd : call.frame.metadata.entries.Distinct) :
    inner.frame.metadata.entries.Distinct := by
  obtain @⟨frame, value, v, _, _, overrides, -, -⟩ := h
  rw [Frame.overridden]
  cases overrides.metadata with
  | none => exact hd
  | some upper => exact Members.Distinct.extend hd

/-- The program answers with what can be assembled from the trees that it had evaluated. -/
def Program.Assembles {ι : Type} (p : Program ι Node) : Prop :=
  ∀ given node, p.Answers given node → node.Assembled given

namespace Evaluator

/-- Every step of an evaluation keeps members dealt with. The metadata of a root is a map when that
of its frame is, which is what the object above needs to take its instructions off. -/
theorem invariant_settled
    (hprograms : ∀ e, Active catalogue extensions e → (catalogue e).Programs Program.Assembles) :
    Call.Invariant catalogue fun call node =>
      (∀ e ∈ call.frame.extensions, Active catalogue extensions e) →
        node.Settled ∧
          (call.frame.metadata.entries.Distinct → node.metadata.entries.Distinct) where
  leaf frame value _ _ _ := ⟨Node.settled_leaf _ _, id⟩
  array frame items children _ hchildren hactive := by
    refine ⟨Node.settled_array.2 fun child hchild => ?_, id⟩
    obtain ⟨inner, henters, hinner⟩ := hchildren child hchild
    exact (hinner (henters.active hactive)).1
  object frame members children node _ hchildren hok hactive := by
    have hentries : ∀ entry ∈ children,
        entry.2.Settled ∧ entry.2.metadata.entries.Distinct := by
      intro entry hentry
      obtain ⟨inner, henters, hinner⟩ := hchildren entry hentry
      obtain ⟨hsettled, hdistinct⟩ := hinner (henters.active hactive)
      exact ⟨hsettled, hdistinct (henters.metadata_eq ▸ List.nodup_nil)⟩
    have hdistinct := fun entry hentry => (hentries entry hentry).2
    exact ⟨ObjectStep.settled_of_result_run (fun entry hentry => (hentries entry hentry).1)
      hdistinct hok, fun hlabel => ObjectStep.distinct_metadata_of_result_run hdistinct hlabel hok⟩
  again frame value e transform trees node hmatch hanswers htrees hactive := by
    have he := hactive e (mem_extensions_of_match? hmatch)
    have hassembled := (hprograms e he).of_match? hmatch trees node hanswers
    have hgiven : ∀ tree ∈ trees, tree.Settled ∧
        (frame.metadata.entries.Distinct → tree.metadata.entries.Distinct) := by
      intro tree htree
      obtain ⟨inner, hreenters, hinner⟩ := htrees tree htree
      obtain ⟨hsettled, hdistinct⟩ := hinner (hreenters.active hactive)
      exact ⟨hsettled, fun hframe => hdistinct (hreenters.distinct_metadata hframe)⟩
    exact ⟨hassembled.settled fun tree htree => (hgiven tree htree).1, fun hframe =>
      hassembled.distinct_metadata fun tree htree => (hgiven tree htree).2 hframe⟩

/-- No member of an evaluated tree carries an instruction, as long as all transforms that can come
to run answer with what can be assembled from the trees that they had evaluated. -/
theorem no_instruction_left {ev : Evaluator ι} {limit : Nat} {raw : Json} {source : Source}
    {tree : Node}
    (hprograms : ∀ e, Active catalogue ev.extensions e → (catalogue e).Programs Program.Assembles)
    (hok : (ev.evaluateWithin catalogue limit raw source).result = .ok tree) :
    tree.Everywhere fun holder => ∀ entry ∈ holder.members?.getD [],
      entry.2.metadata.flag Metadata.shouldMerge = false ∧
      entry.2.metadata.flag Metadata.shouldOverride = false ∧
      entry.2.metadata.flag Metadata.shouldFlatten = false ∧
      entry.2.metadata.get? Metadata.renameKey = none := by
  let root : Call ι := ⟨ev.rootFrame raw source, raw⟩
  obtain ⟨hsettled, -⟩ := (invariant_settled hprograms).of_result root hok
    fun e he => .listed he
  refine hsettled.mono fun holder hholder entry hentry => ?_
  obtain ⟨hmerge, hoverride, hflatten, hrename⟩ := (hholder entry hentry).1
  exact ⟨hmerge, hoverride, hflatten, hrename⟩

/-- Directives that give instructions: one has its object replaced, one puts its value over a
default and has both merged into the object, and one has its value renamed and knows the first one
only. -/
def instructing : Catalogue (Fin 3)
  | 0 => .keyDirective "$flat" fun v _ =>
    .evaluate v { metadata := some ⟨[(Metadata.shouldFlatten, .bool true)]⟩ }
  | 1 => .keyDirective "$under" fun v input => .parse v {} fun
    | .ok tree =>
      let default := Node.literal input.source .empty (.object [("z", .null)])
      (Node.mergeAll [default, tree]).elim (.fail (.internal v.render)) fun folded =>
        .done (folded.addMetadata ⟨[(Metadata.shouldMerge, .bool true)]⟩)
    | .error e => .fail e
  | 2 => .keyDirective "$as" fun v _ =>
    .evaluate v
      { metadata := some ⟨[(Metadata.renameKey, .string "name")]⟩
        extensions := some [⟨0, by decide⟩] }

theorem assembles_instructing (e : Fin 3) : (instructing e).Programs Program.Assembles := by
  have hevaluate : ∀ v overrides,
      (Program.evaluate v overrides : Program (Fin 3) Node).Assembles := by
    intro v overrides given node h
    rw [Program.answers_evaluate.1 h]
    exact .given (List.mem_singleton_self node)
  match e with
  | 0 => exact Extension.programs_keyDirective fun v _ => hevaluate v _
  | 1 =>
      refine Extension.programs_keyDirective fun v input given node h => ?_
      cases h with
      | @given _ _ _ tree trees _ h =>
          cases h
          have hfold : Node.mergeAll [.literal input.source .empty (.object [("z", .null)]), tree] =
              some _ := rfl
          refine .addMetadata _ (.mergeAll (fun layer hlayer => ?_) hfold)
          rcases List.mem_cons.1 hlayer with rfl | hlayer
          · exact .literal _ _
          · obtain rfl := List.mem_singleton.1 hlayer
            exact .given List.mem_cons_self
      | failed h => cases h
  | 2 => exact Extension.programs_keyDirective fun v _ => hevaluate v _

/-- Instructions inside one another, within an array. -/
def instructedDocument : Json :=
  .object [("list", .array [.object
    [("$flat", .object
        [("$under", .object [("x", .object [("$as", .object [("$flat", .ofInt 1)])])]),
          ("y", .ofInt 2)]),
      ("gone", .null)]])]

theorem no_instruction_left_instructedDocument :
    (∀ e, Active instructing [0, 1, 2] e → (instructing e).Programs Program.Assembles) ∧
    ∃ tree, ((Evaluator.mk [0, 1, 2] .empty .empty).evaluateWithin instructing 12 instructedDocument
        (.literal 0 .null)).result = .ok tree ∧
      tree.toJson = .object [("list", .array [.object
        [("z", .null), ("x", .object [("name", .ofInt 1)]), ("y", .ofInt 2)]])] ∧
      tree.Everywhere fun holder => ∀ entry ∈ holder.members?.getD [],
        entry.2.metadata.flag Metadata.shouldMerge = false ∧
        entry.2.metadata.flag Metadata.shouldOverride = false ∧
        entry.2.metadata.flag Metadata.shouldFlatten = false ∧
        entry.2.metadata.get? Metadata.renameKey = none := by
  have hprograms : ∀ e, Active instructing [0, 1, 2] e →
      (instructing e).Programs Program.Assembles := fun e _ => assembles_instructing e
  obtain ⟨tree, hok, hvalue⟩ : ∃ tree, ((Evaluator.mk [0, 1, 2] .empty .empty).evaluateWithin
      instructing 12 instructedDocument (.literal 0 .null)).result = .ok tree ∧
        tree.toJson = .object [("list", .array [.object
          [("z", .null), ("x", .object [("name", .ofInt 1)]), ("y", .ofInt 2)]])] := ⟨_, rfl, rfl⟩
  exact ⟨hprograms, tree, hok, hvalue, no_instruction_left hprograms hok⟩

end Evaluator

end LayeredConfig
