import LayeredConfig.Rule.Declaration
import LayeredConfig.Proofs.Evaluation.Pending

/-!
# How long actions wait

No declared extension goes on from a failure of what it has evaluated (`Rule.passesOn_catalogue`),
and the rounds of an action are the whole of its waiting (`Rule.prompt_catalogue`). So declarations
that differ in rounds alone evaluate a value to the same tree or both to none
(`Rule.evaluate_of_atOnce_eq`).
-/

namespace LayeredConfig

variable {ι α β : Type}

/-! ### Programs one after the other -/

namespace Program

theorem result_run_bind (parse : Json → Overrides ι → Run Node) (p : Program ι α)
    (f : α → Program ι β) :
    ((p >>= f).run parse).result =
      (p.run parse).result.bind fun a => ((f a).run parse).result := by
  induction p with
  | done a => rfl
  | fail e => rfl
  | wait n next ih =>
      change (Run.wait n >>= fun _ => (next >>= f).run parse).result = _
      rw [Program.run, Run.result_bind, Run.result_bind]
      exact ih
  | report event next ih =>
      change (Run.report event >>= fun _ => (next >>= f).run parse).result = _
      rw [Program.run, Run.result_bind, Run.result_bind]
      exact ih
  | parse v overrides next ih =>
      change ((parse v overrides).attempt >>= fun result =>
        (next result >>= f).run parse).result = _
      rw [Program.run, Run.result_bind, Run.result_bind]
      cases (parse v overrides).attempt.result with
      | ok result => exact ih result
      | error s => rfl

theorem NeverAnswers.bind {p : Program ι α} (hp : p.NeverAnswers) (f : α → Program ι β) :
    (p >>= f).NeverAnswers := by
  intro parse b h
  rw [result_run_bind] at h
  cases hresult : (p.run parse).result with
  | ok a => exact hp parse a hresult
  | error s =>
      rw [hresult] at h
      cases h

theorem PassesOn.bind {p : Program ι α} (hp : p.PassesOn) {f : α → Program ι β}
    (hf : ∀ a, (f a).PassesOn) : (p >>= f).PassesOn := by
  induction p with
  | done a => exact hf a
  | fail e => trivial
  | wait n next ih => exact ih hp
  | report event next ih => exact ih hp
  | parse v overrides next ih =>
      exact ⟨fun e => (hp.1 e).bind f, fun node => ih (.ok node) (hp.2 node)⟩

theorem passesOn_ofExcept (result : Except ConfigError α) :
    (ofExcept result : Program ι α).PassesOn := by
  cases result <;> trivial

theorem passesOn_ofLogged (step : Logged α) : (ofLogged step : Program ι α).PassesOn := by
  obtain ⟨events, result⟩ := step
  induction events with
  | nil => exact passesOn_ofExcept result
  | cons event rest ih => exact ih

end Program

/-! ### Actions -/

namespace Rule

open Program

theorem passesOn_evaluateEach (overrides : Overrides ι) (values : List Json) :
    (evaluateEach overrides values).PassesOn := by
  induction values with
  | nil => trivial
  | cons value rest ih =>
      exact (passesOn_evaluate value overrides).bind fun _ => ih.bind fun _ => trivial

theorem passesOn_buildNode (label : Label) (overrides : Overrides ι) (value : Json) :
    (buildNode label overrides value).PassesOn := by
  cases value with
  | array items => exact (passesOn_evaluateEach overrides items).bind fun _ => trivial
  | object members => exact (passesOn_evaluateEach overrides _).bind fun _ => trivial
  | _ => trivial

theorem Work.passesOn_program (host : Host) (name : ι → String) (overrides : Overrides ι)
    (input : Input ι) (value argument : Json) (work : Work) :
    (work.program host name overrides input value argument).PassesOn := by
  cases work with
  | parse plain => exact passesOn_evaluate _ _
  | literal => trivial
  | fail error => trivial
  | report => trivial
  | merge expressions =>
      refine (passesOn_evaluateEach overrides _).bind fun trees => ?_
      cases Node.mergeAll trees <;> trivial
  | load source => exact (passesOn_ofLogged _).bind fun _ => passesOn_evaluate _ _
  | node => exact passesOn_buildNode _ _ _

theorem Action.passesOn_transform (host : Host) (name : ι → String) (action : Action ι)
    (value : Json) (input : Input ι) : (action.transform host name value input).PassesOn :=
  (action.work.passesOn_program host name action.overrides input value _).bind fun _ => trivial

/-! ### Declarations -/

variable {host : Host} {name : Nat → String}

/-- The declaration without the waiting of its action. -/
def Declaration.atOnce : Declaration → Declaration
  | .key directive action => .key directive { action with rounds := 0 }
  | .rule tests action => .rule tests { action with rounds := 0 }
  | declaration => declaration

/-- The extensions of further declarations behind those of earlier ones. -/
def extensions (host : Host) (name : Nat → String) (earlier : Array (Extension Nat))
    (declarations : List Declaration) : Array (Extension Nat) :=
  declarations.foldl (fun earlier declaration =>
    earlier.push (declaration.extension host name earlier)) earlier

theorem catalogue_eq (host : Host) (declarations : Array Declaration) (handle : Nat) :
    catalogue host declarations handle =
      (extensions host (nameOf declarations) #[] declarations.toList).getD handle inert := by
  rw [catalogue, extensions, Array.foldl_toList]

theorem getD_push (earlier : Array (Extension Nat)) (e : Extension Nat) (handle : Nat) :
    (earlier.push e).getD handle inert =
      if handle = earlier.size then e else earlier.getD handle inert := by
  rw [Array.getD_eq_getD_getElem?, Array.getD_eq_getD_getElem?, Array.getElem?_push]
  split <;> rfl

theorem passesOn_markAll (metadata : Metadata) :
    (Extension.markAll metadata : Extension ι).Programs PassesOn := by
  intro value position ancestors context transform happlies input
  obtain ⟨-, heq⟩ := Option.ite_none_left_eq_some.1 happlies
  obtain rfl := Option.some.inj heq
  exact passesOn_evaluate _ _

theorem passesOn_unescapeDirectives (marker : String) :
    (Extension.unescapeDirectives marker : Extension ι).Programs PassesOn := by
  intro value position ancestors context transform happlies input
  obtain ⟨key, -, rfl⟩ := Option.map_eq_some_iff.1 happlies
  exact passesOn_evaluate _ _

theorem Declaration.passesOn_extension {earlier : Array (Extension Nat)}
    (h : ∀ handle, (earlier.getD handle inert).Programs PassesOn) (declaration : Declaration) :
    (declaration.extension host name earlier).Programs PassesOn := by
  cases declaration with
  | unescape marker => exact passesOn_unescapeDirectives marker
  | mark metadata => exact passesOn_markAll metadata
  | markSecrets => exact passesOn_markAll _
  | named identity inner => exact h inner
  | key directive action =>
      exact Extension.programs_keyDirective fun value input =>
        action.passesOn_transform host name value input
  | rule tests action =>
      intro value position ancestors context transform happlies input
      obtain ⟨-, heq⟩ := Option.ite_none_right_eq_some.1 happlies
      obtain rfl := Option.some.inj heq
      exact action.passesOn_transform host name value input

theorem passesOn_extensions {earlier : Array (Extension Nat)}
    (h : ∀ handle, (earlier.getD handle inert).Programs PassesOn)
    (declarations : List Declaration) (handle : Nat) :
    ((extensions host name earlier declarations).getD handle inert).Programs PassesOn := by
  induction declarations generalizing earlier with
  | nil => exact h handle
  | cons declaration rest ih =>
      refine ih fun other => ?_
      rw [getD_push]
      split
      · exact declaration.passesOn_extension h
      · exact h other

/-- No declared extension goes on from a failure of what it has evaluated. -/
theorem passesOn_catalogue (host : Host) (declarations : Array Declaration) :
    (catalogue host declarations).Programs PassesOn := by
  intro handle
  rw [catalogue_eq]
  refine passesOn_extensions (fun other => ?_) declarations.toList handle
  intro value position ancestors context transform happlies
  cases happlies

theorem Declaration.prompt_extension {earlier earlier' : Array (Extension Nat)}
    (h : ∀ handle, (earlier.getD handle inert).prompt = (earlier'.getD handle inert).prompt)
    (declaration : Declaration) :
    (declaration.extension host name earlier).prompt =
      (declaration.atOnce.extension host name earlier').prompt := by
  cases declaration with
  | named identity inner => exact congrArg (Extension.named identity) (h inner)
  | key directive action =>
      change (Extension.keyDirective directive _).prompt =
        (Extension.keyDirective directive _).prompt
      rw [Extension.prompt_keyDirective, Extension.prompt_keyDirective]
      rfl
  | rule tests action =>
      simp only [extension, atOnce, Extension.prompt, Extension.anonymous, Extension.mk.injEq,
        true_and]
      funext value position ancestors context
      by_cases happlies : applies tests value position ancestors context
      · rw [if_pos happlies, if_pos happlies]
        rfl
      · rw [if_neg happlies, if_neg happlies]
  | _ => rfl

theorem prompt_extensions {earlier earlier' : Array (Extension Nat)}
    (hsize : earlier.size = earlier'.size)
    (h : ∀ handle, (earlier.getD handle inert).prompt = (earlier'.getD handle inert).prompt)
    (declarations : List Declaration) (handle : Nat) :
    ((extensions host name earlier declarations).getD handle inert).prompt =
      ((extensions host name earlier' (declarations.map Declaration.atOnce)).getD handle
        inert).prompt := by
  induction declarations generalizing earlier earlier' with
  | nil => exact h handle
  | cons declaration rest ih =>
      refine ih (by simp [hsize]) fun other => ?_
      rw [getD_push, getD_push, hsize]
      split
      · exact declaration.prompt_extension h
      · exact h other

theorem nameOf_map_atOnce (declarations : Array Declaration) :
    nameOf (declarations.map Declaration.atOnce) = nameOf declarations := by
  funext handle
  unfold nameOf
  rw [Array.getElem?_map]
  cases declarations[handle]? with
  | none => rfl
  | some declaration => cases declaration <;> rfl

/-- The rounds of its action are the whole of a declared extension's waiting. -/
theorem prompt_catalogue (host : Host) (declarations : Array Declaration) :
    (catalogue host (declarations.map Declaration.atOnce)).prompt =
      (catalogue host declarations).prompt := by
  funext handle
  rw [Catalogue.prompt, Catalogue.prompt, catalogue_eq, catalogue_eq, nameOf_map_atOnce,
    Array.toList_map]
  exact (prompt_extensions rfl (fun _ => rfl) declarations.toList handle).symm

/-- Declarations that differ in the rounds of their actions alone evaluate a value to the same tree
or both to none. -/
theorem evaluate_of_atOnce_eq {declarations declarations' : Array Declaration}
    (h : declarations.map Declaration.atOnce = declarations'.map Declaration.atOnce) (limit : Nat)
    (ev : Evaluator Nat) (raw : Json) (source : Source) (tree : Node) :
    (ev.evaluateWithin (catalogue host declarations) limit raw source).result = .ok tree ↔
      (ev.evaluateWithin (catalogue host declarations') limit raw source).result = .ok tree := by
  have hprompt : (catalogue host declarations).prompt = (catalogue host declarations').prompt := by
    rw [← prompt_catalogue, h, prompt_catalogue]
  exact evaluateNode_sameSuccess hprompt (passesOn_catalogue host declarations) limit _ raw tree

end Rule

end LayeredConfig
