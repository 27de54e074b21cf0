import LayeredConfig.Proofs.Evaluation.Alike
import LayeredConfig.Proofs.Evaluation.MarkedBelow
import LayeredConfig.Proofs.Evaluation.Nesting
import LayeredConfig.Proofs.Filter.Screening
import LayeredConfig.Proofs.Rule.Overlooking

/-!
# Tagging a layer

Putting an extension that marks in front of others tags the trees of a layer and changes nothing
else about them, as long as the others overlook the tag (`Extension.Overlooks`). Below the root the
marking matches first at every node, so it makes one call more there, under a frame that the others
cannot tell from the one they would have been tried at (`Tagged`). At that frame, as at the root,
the next extension that matches is the same with the marking and without it (`Tagged.match?_eq`).
The two evaluations therefore come out alike, in either direction, with twice as many nested calls
for the tagged one.

Overlooking the tag of the node is not enough. A tree that a directive has evaluated carries the tag
as well, and a directive that looks there tells the two evaluations apart
(`Evaluator.tagging_told_apart`).
-/

namespace LayeredConfig

/-! ### Frames with and without the marking -/

section

variable {ι : Type} [DecidableEq ι] {catalogue : Catalogue ι} {e : ι} {keys : List String}
  {frame tagged : Frame ι}

/-- The second frame is the first one with the extension in front of the active list, and the
extensions behind it overlook what else is different. -/
structure Tagged (catalogue : Catalogue ι) (e : ι) (keys : List String) (frame tagged : Frame ι) :
    Prop where
  input : frame.input.SameBut keys tagged.input
  extensions_eq : tagged.extensions = e :: frame.extensions
  not_mem : e ∉ frame.extensions
  visited_eq : ∀ d ∈ frame.extensions,
    frame.hasVisited catalogue d = tagged.hasVisited catalogue d
  overlooks : ∀ d ∈ frame.extensions, (catalogue d).Overlooks keys

/-- The marking is over at the node, or it leaves the node alone. -/
def Frame.BeyondMark (catalogue : Catalogue ι) (e : ι) (frame : Frame ι) : Prop :=
  frame.position = .root ∨ frame.hasVisited catalogue e = true

namespace Tagged

theorem positions_eq (h : Tagged catalogue e keys frame tagged) :
    frame.positions = tagged.positions :=
  congrArg₂ (· ++ [·]) h.input.ancestors_eq h.input.position_eq

theorem path_eq (h : Tagged catalogue e keys frame tagged) : frame.path = tagged.path := by
  rw [Frame.path, Frame.path, h.positions_eq]

theorem child (h : Tagged catalogue e keys frame tagged) (position : Position) (parent : Json) :
    Tagged catalogue e keys (frame.child position parent) (tagged.child position parent) where
  input := ⟨rfl, h.positions_eq, h.input.source_eq, rfl, h.input.context_eq, rfl, h.input.root_eq⟩
  extensions_eq := h.extensions_eq
  not_mem := h.not_mem
  visited_eq _ _ := rfl
  overlooks := h.overlooks

theorem visit (h : Tagged catalogue e keys frame tagged) (d : ι) :
    Tagged catalogue e keys (frame.visit d) (tagged.visit d) where
  input := { h.input with }
  extensions_eq := h.extensions_eq
  not_mem := h.not_mem
  visited_eq c hc := by rw [Frame.hasVisited_visit, Frame.hasVisited_visit, h.visited_eq c hc]
  overlooks := h.overlooks

theorem overridden (h : Tagged catalogue e keys frame tagged) {overrides : Overrides ι}
    (hextensions : overrides.extensions = none) :
    Tagged catalogue e keys (frame.overridden overrides) (tagged.overridden overrides) := by
  have hkept : ∀ other : Frame ι, (other.overridden overrides).extensions = other.extensions :=
    fun other => by rw [Frame.overridden, hextensions]; rfl
  constructor
  · refine { h.input with source_eq := ?_, forget_metadata_eq := ?_, context_eq := ?_ }
    · exact congrArg overrides.source.getD h.input.source_eq
    · change (overrides.metadata.elim frame.metadata frame.metadata.extended).forget keys =
        (overrides.metadata.elim tagged.metadata tagged.metadata.extended).forget keys
      cases overrides.metadata with
      | none => exact h.input.forget_metadata_eq
      | some upper =>
          rw [Option.elim_some, Option.elim_some, Metadata.forget_extended,
            Metadata.forget_extended]
          exact congrArg (Metadata.extended · _) h.input.forget_metadata_eq
    · exact congrArg (fun context => overrides.context.elim context context.extended)
        h.input.context_eq
  · rw [hkept, hkept, h.extensions_eq]
  · rw [hkept]
    exact h.not_mem
  · rw [hkept]
    exact h.visited_eq
  · rw [hkept]
    exact h.overlooks

/-- The extensions behind the marking cannot tell that it has matched. -/
theorem mark {mark : Metadata} (he : (catalogue e).identity = none)
    (h : Tagged catalogue e mark.entries.keys frame tagged) :
    Tagged catalogue e mark.entries.keys frame
      ((tagged.visit e).overridden { metadata := some mark }) where
  input :=
    { h.input with
      forget_metadata_eq := h.input.forget_metadata_eq.trans
        (Metadata.forget_extended_self tagged.metadata mark).symm }
  extensions_eq := h.extensions_eq
  not_mem := h.not_mem
  visited_eq d hd := by
    have hother : Frame.sameExtension catalogue e d = false := by
      refine sameExtension_eq_false_iff.2 ⟨fun heq => h.not_mem (heq ▸ hd), fun name hname => ?_⟩
      cases he.symm.trans hname.1
    change _ = (tagged.visit e).hasVisited catalogue d
    rw [Frame.hasVisited_visit, hother, Bool.or_false, h.visited_eq d hd]
  overlooks := h.overlooks

/-- Where the marking is over, the next extension matches as it does without it. -/
theorem match?_eq {mark : Metadata} (he : catalogue e = .markAll mark)
    (h : Tagged catalogue e keys frame tagged) (hbeyond : tagged.BeyondMark catalogue e)
    (value : Json) : tagged.match? catalogue value = frame.match? catalogue value := by
  have hrest : frame.extensions.filter (fun d => !tagged.hasVisited catalogue d) =
      frame.extensions.filter fun d => !frame.hasVisited catalogue d :=
    List.filter_congr fun d hd => by rw [h.visited_eq d hd]
  have hunmarked : tagged.match? catalogue value =
      (frame.extensions.filter fun d => !tagged.hasVisited catalogue d).findSome? fun d =>
        ((catalogue d).applies value tagged.position tagged.ancestors tagged.context).map
          fun t => (d, t) := by
    rw [Frame.match?, h.extensions_eq]
    cases hvisited : tagged.hasVisited catalogue e with
    | true => rw [List.filter_cons_of_neg (by simp [hvisited])]
    | false =>
        have hroot := hbeyond.resolve_right (by simp [hvisited])
        rw [List.filter_cons_of_pos (by simp [hvisited]), List.findSome?_cons, he]
        simp only [Extension.markAll, hroot, if_true, Option.map_none]
  have hposition : frame.position = tagged.position := h.input.position_eq
  have hancestors : frame.ancestors = tagged.ancestors := h.input.ancestors_eq
  have hcontext : frame.context = tagged.context := h.input.context_eq
  rw [hunmarked, hrest, Frame.match?, hposition, hancestors, hcontext]

/-- Everywhere else the marking matches. -/
theorem match?_mark {mark : Metadata} (he : catalogue e = .markAll mark)
    (h : Tagged catalogue e keys frame tagged) (hbeyond : ¬ tagged.BeyondMark catalogue e)
    (value : Json) :
    tagged.match? catalogue value = some (e, Extension.reparse value mark) := by
  obtain ⟨hroot, hvisited⟩ := not_or.1 hbeyond
  rw [Frame.match?, h.extensions_eq, List.filter_cons_of_pos (by simpa using hvisited),
    List.findSome?_cons, he]
  simp only [Extension.markAll, hroot, if_false, Option.map_some]

end Tagged

theorem Frame.beyondMark_visit (frame : Frame ι) (e : ι) :
    (frame.visit e).BeyondMark catalogue e := by
  refine .inr ?_
  rw [hasVisited_visit, sameExtension, beq_self_eq_true, Bool.true_or, Bool.or_true]

end

/-! ### Evaluations with and without the marking -/

section

variable {ι : Type} [DecidableEq ι] {catalogue : Catalogue ι} {e : ι} {mark : Metadata}
  {frame tagged : Frame ι}

namespace Tagged

variable (he : catalogue e = .markAll mark)
  (hplain : ∀ key ∈ mark.entries.keys, key ∉ Metadata.instructions)
include he hplain

/-- Where the marking is over, calls come out alike when the calls that they make do. -/
theorem evaluateNode_step {R : (α β : Type) → (α → β → Prop) → Run α → Run β → Prop}
    (hR : Run.Carried R) {limit limit' : Nat}
    (hcalls : ∀ {inner inner' : Frame ι}, Tagged catalogue e mark.entries.keys inner inner' →
      ∀ v, R Node Node (Node.SameBut mark.entries.keys) (evaluateNode catalogue limit inner v)
        (evaluateNode catalogue limit' inner' v))
    (h : Tagged catalogue e mark.entries.keys frame tagged)
    (hbeyond : tagged.BeyondMark catalogue e)
    (value : Json) :
    R Node Node (Node.SameBut mark.entries.keys) (evaluateNode catalogue (limit + 1) frame value)
      (evaluateNode catalogue (limit' + 1) tagged value) := by
  have hmatch := h.match?_eq he hbeyond value
  cases hfound : frame.match? catalogue value with
  | none =>
      rw [evaluateNode_of_match_none hfound, evaluateNode_of_match_none (hmatch.trans hfound)]
      exact descend_alike hR hplain h.input.source_eq h.path_eq h.input.forget_metadata_eq
        fun position child => hcalls (h.child position value) child
  | some found =>
      obtain ⟨d, transform⟩ := found
      obtain ⟨-, -, -, -, happlies, -⟩ := match?_eq_some_iff.1 hfound
      have halike := h.overlooks d (mem_extensions_of_match? hfound) _ _ _ _ transform happlies
        frame.input tagged.input h.input
      simp only [evaluateNode, hmatch, hfound]
      rw [h.path_eq]
      refine hR.bind (hR.ended rfl (.ok trivial)) fun _ _ (_ : True) => ?_
      exact halike.run hR fun v overrides hkept => hcalls ((h.visit d).overridden hkept) v

/-- What the evaluation alone comes to, the tagged one comes to with twice as many nested calls. -/
theorem continues {limit limit' : Nat} (hlimit : 2 * limit ≤ limit')
    (h : Tagged catalogue e mark.entries.keys frame tagged) (value : Json) :
    Run.Continues (Node.SameBut mark.entries.keys) (evaluateNode catalogue limit frame value)
      (evaluateNode catalogue limit' tagged value) := by
  induction limit generalizing limit' frame tagged value with
  | zero => exact .inl ⟨rfl, Nat.zero_le _⟩
  | succ limit ih =>
      obtain ⟨rest, rfl⟩ : ∃ rest, limit' = rest + 2 := ⟨limit' - 2, by omega⟩
      by_cases hbeyond : tagged.BeyondMark catalogue e
      · exact h.evaluateNode_step he hplain Run.carried_continues
          (fun hinner v => ih (by omega) hinner v) hbeyond value
      · -- The marking has the value evaluated again, and there it is over.
        have hmarked : Tagged catalogue e mark.entries.keys frame
            ((tagged.visit e).overridden { metadata := mark }) := h.mark (he ▸ rfl)
        have hagain : Run.Continues (Node.SameBut mark.entries.keys)
            (evaluateNode catalogue (limit + 1) frame value) (evaluateNode catalogue (rest + 1)
              ((tagged.visit e).overridden { metadata := mark }) value) :=
          hmarked.evaluateNode_step he hplain Run.carried_continues
            (fun hinner v => ih (by omega) hinner v) (tagged.beyondMark_visit e) value
        have hmark := h.match?_mark he hbeyond value
        exact hagain.congr rfl (outcome_evaluateNode_of_reparse hmark).symm

/-- What the tagged evaluation comes to, the evaluation alone comes to with as many nested calls. -/
theorem continued {limit limit' : Nat} (hlimit : limit' ≤ limit)
    (h : Tagged catalogue e mark.entries.keys frame tagged) (value : Json) :
    Run.Continues (fun b a => Node.SameBut mark.entries.keys a b)
      (evaluateNode catalogue limit' tagged value) (evaluateNode catalogue limit frame value) := by
  induction limit' generalizing limit frame tagged value with
  | zero => exact .inl ⟨rfl, Nat.zero_le _⟩
  | succ limit' ih =>
      obtain ⟨limit, rfl⟩ : ∃ n, limit = n + 1 := ⟨limit - 1, by omega⟩
      by_cases hbeyond : tagged.BeyondMark catalogue e
      · exact h.evaluateNode_step he hplain Run.carried_continued
          (fun hinner v => ih (by omega) hinner v) hbeyond value
      · have hagain : Run.Continues (fun b a => Node.SameBut mark.entries.keys a b)
            (evaluateNode catalogue limit' ((tagged.visit e).overridden { metadata := mark }) value)
            (evaluateNode catalogue (limit + 1) frame value) :=
          ih (by omega) (h.mark (he ▸ rfl)) value
        have hmark := h.match?_mark he hbeyond value
        exact hagain.congr (outcome_evaluateNode_of_reparse hmark).symm rfl

end Tagged

end

namespace Evaluator

/-- An evaluator with one more extension, to be tried first. -/
def tagged {ι : Type} (ev : Evaluator ι) (e : ι) : Evaluator ι :=
  { ev with extensions := e :: ev.extensions }

/-- Marking in front of extensions that overlook the mark changes nothing but the metadata that
stands under its keys. A layer comes to one failure with it and without it, or to trees that are the
same but for that, and evaluation ends with it exactly when it ends without it: with twice as many
nested calls at most. The extensions have to overlook the mark of the trees that they had evaluated,
not only that of their own node (`tagging_told_apart`). -/
theorem forget_result_tagged {ι : Type} [DecidableEq ι] {catalogue : Catalogue ι} {e : ι}
    {mark : Metadata} (he : catalogue e = .markAll mark)
    (hmark : ∀ key, mark.Holds key → key ∉ Metadata.instructions) {ev : Evaluator ι}
    (hnew : e ∉ ev.extensions)
    (hoverlooks : ∀ d ∈ ev.extensions, (catalogue d).Overlooks mark.entries.keys) (raw : Json)
    (source : Source) :
    (∀ limit limit',
      (ev.evaluateWithin catalogue limit raw source).result ≠ .error .tooDeep →
      ((ev.tagged e).evaluateWithin catalogue limit' raw source).result ≠ .error .tooDeep →
        (ev.evaluateWithin catalogue limit raw source).result.map (Node.forget mark.entries.keys) =
          ((ev.tagged e).evaluateWithin catalogue limit' raw source).result.map
            (Node.forget mark.entries.keys)) ∧
    (∀ limit limit', 2 * limit ≤ limit' →
      (ev.evaluateWithin catalogue limit raw source).result ≠ .error .tooDeep →
        ((ev.tagged e).evaluateWithin catalogue limit' raw source).result ≠ .error .tooDeep) ∧
    ∀ limit limit', limit' ≤ limit →
      ((ev.tagged e).evaluateWithin catalogue limit' raw source).result ≠ .error .tooDeep →
        (ev.evaluateWithin catalogue limit raw source).result ≠ .error .tooDeep := by
  have hroot : Tagged catalogue e mark.entries.keys (ev.rootFrame raw source)
      ((ev.tagged e).rootFrame raw source) :=
    ⟨⟨rfl, rfl, rfl, rfl, rfl, rfl, rfl⟩, rfl, hnew, fun _ _ => rfl, hoverlooks⟩
  have hcontinues : ∀ limit limit', 2 * limit ≤ limit' →
      (ev.evaluateWithin catalogue limit raw source).result ≠ .error .tooDeep →
        Paired (Node.SameBut mark.entries.keys)
          (ev.evaluateWithin catalogue limit raw source).result
          ((ev.tagged e).evaluateWithin catalogue limit' raw source).result :=
    fun limit limit' hlimit hended => (hroot.continues he hmark hlimit raw).paired hended
  have hcontinued : ∀ limit limit', limit' ≤ limit →
      ((ev.tagged e).evaluateWithin catalogue limit' raw source).result ≠ .error .tooDeep →
        Paired (Node.SameBut mark.entries.keys)
          (ev.evaluateWithin catalogue limit raw source).result
          ((ev.tagged e).evaluateWithin catalogue limit' raw source).result :=
    fun limit limit' hlimit hended => ((hroot.continued he hmark hlimit raw).paired hended).flip
  refine ⟨fun limit limit' halone htagged => ?_, fun limit limit' hlimit halone htagged => ?_,
    fun limit limit' hlimit htagged halone => ?_⟩
  · -- Both are compared with what they come to where nothing is cut off.
    have hlarge := hcontinued (max limit limit') limit' (Nat.le_max_right _ _) htagged
    have hended : (ev.evaluateWithin catalogue (max limit limit') raw source).result ≠
        .error .tooDeep := fun hcut => htagged (hlarge.error_iff.1 hcut)
    calc (ev.evaluateWithin catalogue limit raw source).result.map _
      _ = ((ev.tagged e).evaluateWithin catalogue (2 * max limit limit') raw source).result.map _ :=
        Paired.iff_map_eq.1 (hcontinues limit _ (by omega) halone)
      _ = (ev.evaluateWithin catalogue (max limit limit') raw source).result.map _ :=
        (Paired.iff_map_eq.1 (hcontinues _ _ (Nat.le_refl _) hended)).symm
      _ = ((ev.tagged e).evaluateWithin catalogue limit' raw source).result.map _ :=
        Paired.iff_map_eq.1 hlarge
  · exact halone ((hcontinues limit limit' hlimit halone).error_iff.2 htagged)
  · exact htagged ((hcontinued limit limit' hlimit htagged).error_iff.1 halone)

/-- Marking, and directives that are tried after it: one has its value replace the object around it,
one merges two members of its value and puts them under that object, not marked as secrets, and one
builds the nodes of lists itself. -/
def marking : Array Rule.Declaration := #[
  .mark originMark,
  .key "$flat" {
    work := .parse false
    overrides := { metadata := some ⟨[(Metadata.shouldFlatten, .bool true)]⟩ } },
  .key "$both" {
    work := .merge [.pick "a", .pick "b"]
    addMetadata := some ⟨[(Metadata.shouldMerge, .bool true)]⟩
    dropMetadata := [Metadata.fromSecrets] },
  .rule [.type .array] { work := .node }]

/-- A document that all of these directives have to do with. -/
def markingDocument : Json :=
  .object [("db", .object [("port", .ofInt 1), ("$both", .object [("a", .object
      [("port", .ofInt 2)]), ("b", .object [("tls", .object [("$flat", .null)])])])]),
    ("list", .array [.object [("$flat", .ofInt 3)], .bool true])]

/-- The marked layer is marked and comes to the same document. -/
theorem forget_result_tagged_marking :
    Rule.catalogue default marking 0 = .markAll originMark ∧
    (∀ key, originMark.Holds key → key ∉ Metadata.instructions) ∧
    0 ∉ [1, 2, 3] ∧
    (∀ d ∈ [1, 2, 3], (Rule.catalogue default marking d).Overlooks originMark.entries.keys) ∧
    ∃ alone marked,
      ((Evaluator.mk [1, 2, 3] .empty .empty).evaluateWithin (Rule.catalogue default marking) 7
        markingDocument (.literal 0 .null)).result = .ok alone ∧
      ((Evaluator.mk [0, 1, 2, 3] .empty .empty).evaluateWithin (Rule.catalogue default marking) 14
        markingDocument (.literal 0 .null)).result = .ok marked ∧
      (∀ child ∈ alone.children, ¬ child.metadata.Holds "origin") ∧
      (∃ child ∈ marked.children, child.metadata.Holds "origin") ∧
      marked.toJson = .object [("db", .object [("port", .ofInt 1), ("tls", .null)]),
        ("list", .array [.ofInt 3, .bool true])] ∧
      alone.forget originMark.entries.keys = marked.forget originMark.entries.keys := by
  have hmark : ∀ key, originMark.Holds key → key ∉ Metadata.instructions := by
    have hkeys : ∀ key ∈ originMark.entries.keys, key ∉ Metadata.instructions := by decide
    exact hkeys
  have hoverlooks : ∀ d ∈ [1, 2, 3],
      (Rule.catalogue default marking d).Overlooks originMark.entries.keys :=
    fun d _ => Rule.overlooks_catalogue default (by decide) d
  obtain ⟨alone, halone, hunmarked⟩ : ∃ alone,
      ((Evaluator.mk [1, 2, 3] .empty .empty).evaluateWithin (Rule.catalogue default marking) 7
        markingDocument (.literal 0 .null)).result = .ok alone ∧
      ∀ child ∈ alone.children, ¬ child.metadata.Holds "origin" := ⟨_, rfl, by decide⟩
  obtain ⟨marked, hmarked, hholds, hvalue⟩ : ∃ marked,
      ((Evaluator.mk [0, 1, 2, 3] .empty .empty).evaluateWithin (Rule.catalogue default marking) 14
        markingDocument (.literal 0 .null)).result = .ok marked ∧
      (∃ child ∈ marked.children, child.metadata.Holds "origin") ∧
      marked.toJson = .object [("db", .object [("port", .ofInt 1), ("tls", .null)]),
        ("list", .array [.ofInt 3, .bool true])] := ⟨_, rfl, by decide, by decide⟩
  have hfirst : Rule.catalogue default marking 0 = .markAll originMark := rfl
  have hnew : 0 ∉ (Evaluator.mk [1, 2, 3] .empty .empty).extensions := by decide
  obtain ⟨hsame, -, -⟩ :=
    forget_result_tagged hfirst hmark hnew hoverlooks markingDocument (.literal 0 .null)
  have hforget := hsame 7 14 (by rw [halone]; exact nofun) (hmarked ▸ nofun)
  rw [halone] at hforget
  exact ⟨hfirst, hmark, by decide, hoverlooks, alone, marked, halone, hmarked, hunmarked, hholds,
    hvalue, Except.ok.inj (hforget.trans (congrArg _ hmarked))⟩

/-- Marking as secrets, and a directive that has its value evaluated and answers with what is no
secret in the tree that came of it. -/
def publishing : Catalogue Bool
  | true => .markAll secretsMark
  | false => .keyDirective "$public" fun value _ =>
    .parse value {} fun outcome =>
      .ofExcept (outcome.bind fun tree => tree.filterWhere Node.notFromSecrets)

/-- The directive on a number. -/
def publishedDocument : Json := .object [("$public", .ofInt 1)]

theorem overlooksInput_publishing : (publishing false).OverlooksInput := by
  intro value position ancestors context transform happlies input
  obtain ⟨-, heq⟩ := Option.ite_none_right_eq_some.1 happlies
  obtain rfl := Option.some.inj heq
  refine ⟨fun metadata extensions => rfl, fun v overrides hasks => ?_⟩
  cases hasks with
  | here => rfl
  | later outcome hlater => exact absurd hlater (Program.not_asks_ofExcept _)

/-- Directives that overlook the mark of their own node can tell what was marked by the trees that
they have evaluated. The tree of `$public` is that of a node below the root, so under the marking
its root is a secret, which no filter can take away: the layer fails, and without the marking it
does not. -/
theorem tagging_told_apart :
    publishing true = .markAll secretsMark ∧
    (∀ key, secretsMark.Holds key → key ∉ Metadata.instructions) ∧
    true ∉ [false] ∧
    (∀ d ∈ [false], (publishing d).OverlooksInput) ∧
    ∃ alone,
      ((Evaluator.mk [false] .empty .empty).evaluateWithin publishing 4 publishedDocument
        (.literal 0 .null)).result = .ok alone ∧
      (((Evaluator.mk [false] .empty .empty).tagged true).evaluateWithin publishing 8
        publishedDocument (.literal 0 .null)).result =
        .error (.failed (.internal "clone_where cannot filter out the node it was called on")) := by
  refine ⟨rfl, secretsMark_not_mem_instructions, by decide, ?_, _, rfl, rfl⟩
  exact List.forall_mem_singleton.2 overlooksInput_publishing

end Evaluator

end LayeredConfig
