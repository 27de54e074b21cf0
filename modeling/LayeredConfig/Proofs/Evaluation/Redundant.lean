import LayeredConfig.Proofs.Evaluation.Calls

/-!
# Redundant entries of the active list

Only extensions that have matched are passed over, and they are told apart by what they are and not
by where they stand in the list. So an entry that never applies, and one that stands in the list
before, are tried in vain at every node and in every call of a chain (`Frame.match?_relisted`).
Evaluations with and without it make the same calls, one by one, unless a transform looks at the
list itself, and so they come to the same (`Evaluator.evaluateWithin_of_redundant`). Extensions that
have the matched value evaluated again do not look at the list.
-/

namespace LayeredConfig

variable {ι : Type}

namespace Extension

/-- The extension applies to nothing. -/
def AppliesNowhere (e : Extension ι) : Prop :=
  ∀ value position ancestors context, e.applies value position ancestors context = none

/-- What a transform of the extension does is the same under every active list. -/
def IgnoresList (e : Extension ι) : Prop :=
  ∀ value position ancestors context transform,
    e.applies value position ancestors context = some transform →
      ∀ input extensions, transform { input with extensions := extensions } = transform input

theorem ignoresList_unescapeDirectives (marker : String) :
    (unescapeDirectives marker : Extension ι).IgnoresList := by
  intro value position ancestors context transform happlies input extensions
  obtain ⟨name, -, rfl⟩ := Option.map_eq_some_iff.1 happlies
  rfl

theorem ignoresList_markAll (metadata : Metadata) :
    (markAll metadata : Extension ι).IgnoresList := by
  intro value position ancestors context transform happlies input extensions
  obtain ⟨-, heq⟩ := Option.ite_none_left_eq_some.1 happlies
  obtain rfl := Option.some.inj heq
  rfl

end Extension

/-- An entry that gives nothing, or that stands in front already, is never the first one. -/
theorem findSome?_append_cons_of_redundant {α β : Type} {f : α → Option β} {before after : List α}
    {a : α} (h : f a = none ∨ a ∈ before) :
    (before ++ a :: after).findSome? f = (before ++ after).findSome? f := by
  rw [List.findSome?_append, List.findSome?_append, List.findSome?_cons]
  cases hbefore : before.findSome? f with
  | some b => rfl
  | none =>
      have ha : f a = none := h.elim id (List.findSome?_eq_none_iff.1 hbefore a)
      rw [ha]

namespace Frame

variable [DecidableEq ι] {catalogue : Catalogue ι} {before after : List ι} {e : ι}

theorem match?_relisted (h : (catalogue e).AppliesNowhere ∨ e ∈ before) (frame : Frame ι)
    (value : Json) :
    (frame.relisted (before ++ e :: after)).match? catalogue value =
      (frame.relisted (before ++ after)).match? catalogue value := by
  simp only [match?, relisted, List.filter_append, List.filter_cons]
  split
  · next hunused =>
    refine findSome?_append_cons_of_redundant (h.imp (fun hnowhere => ?_) fun hmem => ?_)
    · rw [hnowhere]
      rfl
    · exact List.mem_filter.2 ⟨hmem, hunused⟩
  · rfl

end Frame

/-! ### Evaluations in lockstep -/

variable [DecidableEq ι] {catalogue : Catalogue ι}

/-- A list that makes no difference to what matches makes none to an evaluation. -/
theorem evaluateNode_relisted {list longer : List ι}
    (hmatch : ∀ (frame : Frame ι) value, (frame.relisted longer).match? catalogue value =
      (frame.relisted list).match? catalogue value)
    (hignores : ∀ d ∈ list, (catalogue d).IgnoresList) (limit : Nat) (frame : Frame ι)
    (hlist : frame.extensions = list) (value : Json) :
    evaluateNode catalogue limit (frame.relisted longer) value =
      evaluateNode catalogue limit frame value := by
  -- Both frames have the same extensions behind them, since they match the same one at every step.
  induction limit generalizing frame value with
  | zero => rfl
  | succ n ih =>
      have hsame : (frame.relisted longer).match? catalogue value =
          frame.match? catalogue value := by
        rw [hmatch, ← hlist]
        rfl
      cases hfound : frame.match? catalogue value with
      | none =>
          simp only [evaluateNode, hsame, hfound, descend_relisted]
          refine descend_rel Run.respected_eq hfound fun inner henters => ?_
          exact ih inner.frame (henters.extensions_eq.trans hlist) inner.value
      | some found =>
          obtain ⟨d, transform⟩ := found
          obtain ⟨-, -, -, -, happlies, -⟩ := match?_eq_some_iff.1 hfound
          have hmem : d ∈ list := hlist ▸ mem_extensions_of_match? hfound
          have hprogram : transform (frame.relisted longer).input = transform frame.input :=
            hignores d hmem _ _ _ _ transform happlies frame.input longer
          simp only [evaluateNode, hsame, hfound, hprogram]
          refine Run.respected_eq.bind rfl fun _ => ?_
          refine Program.run_rel Run.respected_eq (congrArg Run.attempt) fun v overrides _ => ?_
          -- A list of the transform's own replaces either list.
          cases hothers : overrides.extensions with
          | none =>
              have hinner : ((frame.relisted longer).visit d).overridden overrides =
                  ((frame.visit d).overridden overrides).relisted longer := by
                simp only [Frame.overridden, Frame.visit, Frame.relisted, hothers, Option.getD_none]
              rw [hinner]
              refine ih _ ?_ v
              simp only [Frame.overridden, Frame.visit, hothers, Option.getD_none, hlist]
          | some others =>
              have hinner : ((frame.relisted longer).visit d).overridden overrides =
                  (frame.visit d).overridden overrides := by
                simp only [Frame.overridden, Frame.visit, Frame.relisted, hothers, Option.getD_some]
              rw [hinner]

namespace Evaluator

/-- An entry that applies nowhere, or one that stands in front of itself already, can be left out of
the active list when no transform looks at the list: the evaluation of every value comes to the same
tree or failure, after as many rounds and with the same events, whatever the source, the metadata
and the context of the evaluation are. -/
theorem evaluateWithin_of_redundant (before after : List ι) (e : ι)
    (hredundant : (catalogue e).AppliesNowhere ∨ e ∈ before)
    (hignores : ∀ d ∈ before ++ after, (catalogue d).IgnoresList) (metadata : Metadata)
    (context : Context) (limit : Nat) (raw : Json) (source : Source) :
    (Evaluator.mk (before ++ e :: after) metadata context).evaluateWithin catalogue limit raw
        source =
      (Evaluator.mk (before ++ after) metadata context).evaluateWithin catalogue limit raw source :=
  evaluateNode_relisted (Frame.match?_relisted hredundant) hignores limit
    ((Evaluator.mk (before ++ after) metadata context).rootFrame raw source) rfl raw

/-- Unescaping, marking, and an extension that applies nowhere. -/
def sparedSecrets : Catalogue (Option Bool)
  | some false => .unescapeDirectives "$"
  | some true => .markSecrets
  | none => .anonymous fun _ _ _ _ => none

/-- A value whose innermost member is unescaped first and marked in a second call. -/
def chainedDocument : Json := .object [("a", .array [.object [("$$b", .null)]])]

theorem evaluateWithin_of_redundant_sparedSecrets :
    (∃ tree, ((Evaluator.mk [some false, some true] .empty .empty).evaluateWithin sparedSecrets 12
        chainedDocument (.literal 0 .null)).result = .ok tree ∧
      tree.toJson = .object [("a", .array [.object [("$b", .null)]])] ∧
      ((Evaluator.mk [some false, none, some true] .empty .empty).evaluateWithin sparedSecrets 12
        chainedDocument (.literal 0 .null)).result = .ok tree ∧
      ((Evaluator.mk [some false, some true, some false] .empty .empty).evaluateWithin sparedSecrets
        12 chainedDocument (.literal 0 .null)).result = .ok tree) ∧
    (sparedSecrets none).AppliesNowhere ∧
    ∀ d ∈ [some false, some true], (sparedSecrets d).IgnoresList := by
  have hnowhere : (sparedSecrets none).AppliesNowhere := fun _ _ _ _ => rfl
  have hignores : ∀ d ∈ [some false, some true], (sparedSecrets d).IgnoresList :=
    List.forall_mem_cons.2 ⟨Extension.ignoresList_unescapeDirectives "$",
      List.forall_mem_singleton.2 (Extension.ignoresList_markAll _)⟩
  have hspare := evaluateWithin_of_redundant [some false] [some true] none (.inl hnowhere) hignores
    .empty .empty 12 chainedDocument (.literal 0 .null)
  have hagain := evaluateWithin_of_redundant [some false, some true] [] (some false)
    (.inr (by decide)) hignores .empty .empty 12 chainedDocument (.literal 0 .null)
  refine ⟨⟨_, rfl, by decide, ?_, ?_⟩, hnowhere, hignores⟩
  · exact congrArg Run.result hspare
  · exact congrArg Run.result hagain

end Evaluator

end LayeredConfig
