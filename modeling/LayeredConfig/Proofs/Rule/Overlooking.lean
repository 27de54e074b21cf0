import LayeredConfig.Rule.Declaration
import LayeredConfig.Proofs.Evaluation.Alike
import LayeredConfig.Proofs.Rule.Rounds

/-!
# Actions that overlook metadata

Whether a declared extension overlooks metadata under some keys can be read off its declaration: no
expression of its action asks for an entry under one of them, the action does not report what it is
told about the node, and its overrides leave the active list in place (`Declaration.overlooks`). The
trees that an action merges, builds or changes the metadata of may well hold such entries, which
never decide what it does (`Rule.overlooks_catalogue`).
-/

namespace LayeredConfig

variable {ι : Type} {keys : List String}

namespace Rule

/-! ### What declarations look at -/

/-- The expression asks for no metadata under the keys. -/
def Expression.overlooks (keys : List String) : Expression → Bool
  | .metadata key => key ∉ keys
  | _ => true

/-- The work tells nothing of the metadata under the keys, nor of the active list. -/
def Work.overlooks (keys : List String) : Work → Bool
  | .report => false
  | .merge expressions => expressions.all (·.overlooks keys)
  | _ => true

def Action.overlooks (keys : List String) (action : Action ι) : Bool :=
  action.argument.overlooks keys && action.work.overlooks keys &&
    action.overrides.extensions.isNone

/-- The action of the declaration, if it has one, looks neither at metadata under the keys nor at
the active list, and leaves that list in place. -/
def Declaration.overlooks (keys : List String) : Declaration → Bool
  | .key _ action | .rule _ action => action.overlooks keys
  | _ => true

/-! ### What actions do -/

theorem Expression.eval_eq {expression : Expression} (h : expression.overlooks keys = true)
    {input input' : Input ι} (hinput : input.SameBut keys input') (value : Json) :
    expression.eval input value = expression.eval input' value := by
  cases expression with
  | metadata key =>
      have hkey : key ∉ keys := of_decide_eq_true h
      rw [eval, eval, ← Metadata.get?_forget hkey, hinput.forget_metadata_eq,
        Metadata.get?_forget hkey]
  | rootKey key => rw [eval, eval, hinput.root_eq]
  | parentKey key => rw [eval, eval, hinput.parent_eq]
  | context key => rw [eval, eval, hinput.context_eq]
  | select key => rw [eval, eval, hinput.context_eq]
  | _ => rfl

open Program

theorem alike_evaluateEach {overrides : Overrides ι} (h : overrides.extensions = none)
    (values : List Json) :
    (evaluateEach overrides values).Alike (Node.SameBut keys)
      (fun as bs => as.map (Node.forget keys) = bs.map (Node.forget keys))
      (evaluateEach overrides values) := by
  induction values with
  | nil => exact .done rfl
  | cons value rest ih =>
      refine (alike_evaluate value h).bind fun a b hab => ih.bind fun as bs habs => .done ?_
      rw [List.map_cons, List.map_cons, hab, habs]

theorem alike_buildNode {overrides : Overrides ι} (h : overrides.extensions = none) (label : Label)
    (value : Json) :
    (buildNode label overrides value).Alike (Node.SameBut keys) (Node.SameBut keys)
      (buildNode label overrides value) := by
  cases value with
  | array items =>
      refine (alike_evaluateEach h items).bind fun as bs habs => .done ?_
      rw [Node.SameBut, Node.forget_array, Node.forget_array, habs]
  | object members =>
      refine (alike_evaluateEach h _).bind fun as bs habs => .done ?_
      have hzip : ∀ nodes : List Node,
          Members.mapValues (Node.forget keys) ((members.map Prod.fst).zip nodes) =
            (members.map Prod.fst).zip (nodes.map (Node.forget keys)) :=
        fun nodes => List.zip_map_right.symm
      rw [Node.SameBut, Node.forget_object, Node.forget_object, hzip, hzip, habs]
  | _ => exact .done rfl

theorem Work.alike_program (host : Host) (name : ι → String) {overrides : Overrides ι}
    (hoverrides : overrides.extensions = none) {work : Work} (h : work.overlooks keys = true)
    {input input' : Input ι} (hinput : input.SameBut keys input')
    (value argument : Json) :
    (work.program host name overrides input value argument).Alike (Node.SameBut keys)
      (Node.SameBut keys) (work.program host name overrides input' value argument) := by
  cases work with
  | parse plain =>
      refine alike_evaluate _ ?_
      cases plain
      · exact hoverrides
      · rfl
  | literal =>
      rw [program, program, hinput.source_eq]
      exact .done rfl
  | fail error => exact .fail error
  | report => cases h
  | merge expressions =>
      have hvalues : expressions.map (·.eval input value) = expressions.map (·.eval input' value) :=
        List.map_congr_left fun expression hmem =>
          Expression.eval_eq (List.all_eq_true.1 h expression hmem) hinput value
      rw [program, program, hvalues]
      refine (alike_evaluateEach hoverrides _).bind fun as bs habs => ?_
      have hmerged : (Node.mergeAll as).map (Node.forget keys) =
          (Node.mergeAll bs).map (Node.forget keys) := by
        rw [Node.forget_mergeAll, Node.forget_mergeAll, habs]
      cases has : Node.mergeAll as with
      | none =>
          cases hbs : Node.mergeAll bs with
          | none => exact .fail _
          | some b => simp [has, hbs] at hmerged
      | some a =>
          cases hbs : Node.mergeAll bs with
          | none => simp [has, hbs] at hmerged
          | some b => exact .done (by rwa [has, hbs, Option.map_some, Option.map_some,
              Option.some_inj] at hmerged)
  | load source =>
      refine (alike_ofLogged _).bind fun a b hab => ?_
      obtain rfl := hab
      exact alike_evaluate _ hoverrides
  | node =>
      rw [program, program, hinput.source_eq]
      exact alike_buildNode hoverrides _ _

theorem Action.alike_transform (host : Host) (name : ι → String) {action : Action ι}
    (h : action.overlooks keys = true) {input input' : Input ι}
    (hinput : input.SameBut keys input') (value : Json) :
    (action.transform host name value input).Alike (Node.SameBut keys) (Node.SameBut keys)
      (action.transform host name value input') := by
  simp only [overlooks, Bool.and_eq_true, Option.isNone_iff_eq_none] at h
  obtain ⟨⟨hargument, hwork⟩, hoverrides⟩ := h
  refine .wait _ ?_
  rw [Expression.eval_eq hargument hinput]
  refine (Work.alike_program host name hoverrides hwork hinput value _).bind fun a b hab => .done ?_
  have hmarked : Node.SameBut keys (action.addMetadata.elim a a.addMetadata)
      (action.addMetadata.elim b b.addMetadata) := by
    cases action.addMetadata with
    | none => exact hab
    | some upper => exact hab.addMetadata upper
  exact List.foldl_rel hmarked fun key _ _ _ h => h.dropMetadata key

/-! ### Declarations -/

variable {host : Host} {name : Nat → String}

theorem overlooks_markAll (metadata : Metadata) :
    (Extension.markAll metadata : Extension ι).Overlooks keys := by
  intro value position ancestors context transform happlies input input' hinput
  obtain ⟨-, hfound⟩ := Option.ite_none_left_eq_some.1 happlies
  obtain rfl := Option.some.inj hfound
  exact alike_evaluate _ rfl

theorem overlooks_unescapeDirectives (marker : String) :
    (Extension.unescapeDirectives marker : Extension ι).Overlooks keys := by
  intro value position ancestors context transform happlies input input' hinput
  obtain ⟨key, -, rfl⟩ := Option.map_eq_some_iff.1 happlies
  exact alike_evaluate _ rfl

theorem Declaration.overlooks_extension {earlier : Array (Extension Nat)}
    (hearlier : ∀ handle, (earlier.getD handle inert).Overlooks keys) {declaration : Declaration}
    (h : declaration.overlooks keys = true) :
    (declaration.extension host name earlier).Overlooks keys := by
  cases declaration with
  | unescape marker => exact overlooks_unescapeDirectives marker
  | mark metadata => exact overlooks_markAll metadata
  | markSecrets => exact overlooks_markAll _
  | named identity inner => exact hearlier inner
  | key directive action =>
      intro value position ancestors context transform happlies input input' hinput
      obtain ⟨-, hfound⟩ := Option.ite_none_right_eq_some.1 happlies
      obtain rfl := Option.some.inj hfound
      exact Action.alike_transform host name h hinput value
  | rule tests action =>
      intro value position ancestors context transform happlies input input' hinput
      obtain ⟨-, hfound⟩ := Option.ite_none_right_eq_some.1 happlies
      obtain rfl := Option.some.inj hfound
      exact Action.alike_transform host name h hinput value

theorem overlooks_extensions {earlier : Array (Extension Nat)}
    (hearlier : ∀ handle, (earlier.getD handle inert).Overlooks keys)
    {declarations : List Declaration} (h : ∀ d ∈ declarations, d.overlooks keys = true)
    (handle : Nat) :
    ((extensions host name earlier declarations).getD handle inert).Overlooks keys := by
  induction declarations generalizing earlier with
  | nil => exact hearlier handle
  | cons declaration rest ih =>
      obtain ⟨hfirst, hrest⟩ := List.forall_mem_cons.1 h
      refine ih (fun other => ?_) hrest
      rw [getD_push]
      split
      · exact Declaration.overlooks_extension hearlier hfirst
      · exact hearlier other

/-- Declared extensions overlook metadata when their declarations do. -/
theorem overlooks_catalogue (host : Host) {declarations : Array Declaration}
    (h : ∀ d ∈ declarations, d.overlooks keys = true) (handle : Nat) :
    (catalogue host declarations handle).Overlooks keys := by
  rw [catalogue_eq]
  refine overlooks_extensions (fun other => ?_) (fun d hd => h d (Array.mem_toList_iff.1 hd)) handle
  intro value position ancestors context transform happlies
  cases happlies

end Rule

end LayeredConfig
