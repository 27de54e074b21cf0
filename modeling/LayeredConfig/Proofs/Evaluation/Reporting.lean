import LayeredConfig.Proofs.Evaluation.Guard
import LayeredConfig.Proofs.Evaluation.Surroundings

/-!
# Where events are reported

A run reports what it is put together from reports, and nothing else. So every event of an
evaluation was reported at one of the calls that it makes (`Call.exists_makes_of_mem_reported`): by
the evaluator about the extension that matched there, by the transform of that extension, or where
members were put together to an object. The calls are those that `Call.Reached` and `Call.Chain`
speak of, so whatever is reported as matched did match at the end of a chain, and is told apart from
all that was used along it (`Evaluator.exists_chain_of_extensionMatched`).
-/

namespace LayeredConfig

/-! ### Steps -/

theorem Logged.mem_events_bind {α β : Type} {step : Logged α} {f : α → Logged β} {event : Event}
    (h : event ∈ (step >>= f).events) : event ∈ step.events ∨ ∃ a, event ∈ (f a).events := by
  change event ∈ (step.bind f).events at h
  unfold bind at h
  cases hresult : step.result with
  | ok a =>
      rw [hresult] at h
      exact (List.mem_append.1 h).imp_right fun hlater => ⟨a, hlater⟩
  | error e =>
      rw [hresult] at h
      exact .inl h

namespace ObjectStep

variable {path found name : String}

theorem extensionMatched_not_mem_events_place (groups : Groups) (key : String) (member : Node) :
    .extensionMatched found name ∉ (place path groups key member).events := by
  unfold place
  cases roleOf member <;>
    simp [Logged.ok, Logged.fail, Logged.report, bind, Logged.bind, pure]

theorem extensionMatched_not_mem_events_placeAll (groups : Groups)
    (members : List (String × Node)) :
    .extensionMatched found name ∉ (placeAll path groups members).events := by
  induction members generalizing groups with
  | nil => exact List.not_mem_nil
  | cons entry rest ih =>
      intro h
      rcases Logged.mem_events_bind h with hplace | ⟨placed, hrest⟩
      · exact extensionMatched_not_mem_events_place groups entry.1 entry.2 hplace
      · exact ih placed hrest

theorem extensionMatched_not_mem_events_flatten (metadata : Metadata) (count : Nat) (first : Node)
    (others : List Node) :
    .extensionMatched found name ∉ (flatten path metadata count first others).events := by
  unfold flatten
  by_cases hcount : 1 < count <;> by_cases hothers : others.isEmpty <;>
    simp [hcount, hothers, Logged.ok, Logged.report, bind, Logged.bind, pure]

/-- Putting an object together reports nothing as matched. -/
theorem extensionMatched_not_mem_events_run (label : Label) (members : List (String × Node)) :
    .extensionMatched found name ∉ (run path label members).events := by
  intro h
  rcases Logged.mem_events_bind h with hplaced | ⟨groups, hrest⟩
  · exact extensionMatched_not_mem_events_placeAll {} members hplaced
  · split at hrest
    · exact extensionMatched_not_mem_events_flatten _ _ _ _ hrest
    · exact List.not_mem_nil hrest

end ObjectStep

/-! ### Runs -/

namespace Run

variable {α β : Type} {event : Event}

/-- What a run reports, in order. -/
def reported (x : Run α) : List Event := x.events.map Prod.snd

theorem reported_later (rounds : Nat) (events : List (Nat × Event)) :
    (later rounds events).map Prod.snd = events.map Prod.snd := List.map_map

theorem mem_reported_bind {x : Run α} {f : α → Run β} (h : event ∈ (x >>= f).reported) :
    event ∈ x.reported ∨ ∃ a, event ∈ (f a).reported := by
  change event ∈ (x.bind f).events.map Prod.snd at h
  unfold bind at h
  cases hresult : x.result with
  | ok a =>
      rw [hresult] at h
      rw [List.map_append, reported_later] at h
      exact (List.mem_append.1 h).imp_right fun hlater => ⟨a, hlater⟩
  | error s =>
      rw [hresult] at h
      exact .inl h

theorem reported_ofLogged (step : Logged α) : (ofLogged step).reported = step.events :=
  List.map_map.trans (List.map_id' step.events)

theorem mem_events_combine {x : Run α} {ys : Run (List α)} {entry : Nat × Event}
    (h : entry ∈ (combine x ys).events) : entry ∈ x.events ∨ entry ∈ ys.events := by
  have hmerge : ∀ xs others, entry ∈ mergeEvents xs others → entry ∈ xs ∨ entry ∈ others :=
    fun xs others hmem => List.mem_merge.1 hmem
  unfold combine at h
  -- What stops first cuts off what the others would have reported later.
  cases hx : x.result with
  | ok a =>
      cases hy : ys.result with
      | ok rest =>
          simp only [hx, hy] at h
          exact hmerge _ _ h
      | error t =>
          simp only [hx, hy] at h
          exact (hmerge _ _ h).imp_left (List.filter_sublist.subset ·)
  | error s =>
      cases hy : ys.result with
      | ok rest =>
          simp only [hx, hy] at h
          exact (hmerge _ _ h).imp_right (List.filter_sublist.subset ·)
      | error t =>
          simp only [hx, hy] at h
          split at h
          · exact (hmerge _ _ h).imp_right (List.filter_sublist.subset ·)
          · exact (hmerge _ _ h).imp_left (List.filter_sublist.subset ·)

theorem mem_reported_beside {x : Run α} {others : Unit → Run (List α)}
    (h : event ∈ (x.beside others).reported) :
    event ∈ x.reported ∨ event ∈ (others ()).reported := by
  obtain ⟨entry, hentry, rfl⟩ := List.mem_map.1 h
  unfold beside at hentry
  split at hentry
  · exact .inl (List.mem_map_of_mem hentry)
  · exact (mem_events_combine hentry).imp List.mem_map_of_mem List.mem_map_of_mem

end Run

/-! ### Programs -/

/-- Some outcomes of its evaluations lead the program to report the event itself. -/
inductive Program.Reports {ι α : Type} : Program ι α → Event → Prop
  | here {event : Event} {next : Program ι α} : Reports (.report event next) event
  | wait {n : Nat} {next : Program ι α} {event : Event} :
      Reports next event → Reports (.wait n next) event
  | report {other event : Event} {next : Program ι α} :
      Reports next event → Reports (.report other next) event
  | later {v : Json} {overrides : Overrides ι} {next : Except ConfigError Node → Program ι α}
      {event : Event} (result : Except ConfigError Node) :
      Reports (next result) event → Reports (.parse v overrides next) event

/-- A run of a program reports what the program reports and what the evaluations that it asks for
report. -/
theorem Program.mem_reported_run {ι α : Type} {parse : Json → Overrides ι → Run Node}
    {p : Program ι α} {event : Event} (h : event ∈ (p.run parse).reported) :
    p.Reports event ∨ ∃ v overrides, p.Asks v overrides ∧ event ∈ (parse v overrides).reported := by
  induction p with
  | done a => exact absurd h List.not_mem_nil
  | fail e => exact absurd h List.not_mem_nil
  | wait n next ih =>
      rcases Run.mem_reported_bind h with hwait | ⟨-, hnext⟩
      · exact absurd hwait List.not_mem_nil
      · refine (ih hnext).imp .wait ?_
        exact fun ⟨v, overrides, hasks, hmem⟩ => ⟨v, overrides, .wait hasks, hmem⟩
  | report other next ih =>
      rcases Run.mem_reported_bind h with hother | ⟨-, hnext⟩
      · obtain rfl := List.mem_singleton.1 hother
        exact .inl .here
      · refine (ih hnext).imp .report ?_
        exact fun ⟨v, overrides, hasks, hmem⟩ => ⟨v, overrides, .report hasks, hmem⟩
  | parse w before next ih =>
      rcases Run.mem_reported_bind h with hparse | ⟨outcome, hnext⟩
      · exact .inr ⟨w, before, .here, hparse⟩
      · refine (ih outcome hnext).imp (.later outcome) ?_
        exact fun ⟨v, overrides, hasks, hmem⟩ => ⟨v, overrides, .later outcome hasks, hmem⟩

/-! ### Children -/

theorem exists_of_mem_reported_besideItems {f : Nat → Json → Run Node} {index : Nat}
    {items : List Json} {event : Event} (h : event ∈ (besideItems f index items).reported) :
    ∃ i item, items[i]? = some item ∧ event ∈ (f (index + i) item).reported := by
  induction items generalizing index with
  | nil => exact absurd h List.not_mem_nil
  | cons first rest ih =>
      rcases Run.mem_reported_beside h with hfirst | hrest
      · exact ⟨0, first, rfl, hfirst⟩
      · obtain ⟨i, item, hitem, hmem⟩ := ih hrest
        refine ⟨i + 1, item, hitem, ?_⟩
        rwa [show index + (i + 1) = index + 1 + i by omega]

theorem exists_of_mem_reported_besideMembers {f : String → Json → Run Node}
    {members : List (String × Json)} {event : Event}
    (h : event ∈ (besideMembers f members).reported) :
    ∃ entry ∈ members, event ∈ (f entry.1 entry.2).reported := by
  induction members with
  | nil => exact absurd h List.not_mem_nil
  | cons first rest ih =>
      rcases Run.mem_reported_beside h with hfirst | hrest
      · rcases Run.mem_reported_bind hfirst with hcall | ⟨node, hpair⟩
        · exact ⟨first, List.mem_cons_self, hcall⟩
        · exact absurd hpair List.not_mem_nil
      · obtain ⟨entry, hentry, hmem⟩ := ih hrest
        exact ⟨entry, List.mem_cons_of_mem _ hentry, hmem⟩

/-! ### Calls -/

namespace Call

variable {ι : Type} [DecidableEq ι] {catalogue : Catalogue ι}

/-- The event is reported at the call itself: about the extension that matches there, by its
transform, or where the members of an object are put together. -/
inductive Reports (catalogue : Catalogue ι) : Call ι → Event → Prop
  | matched {call : Call ι} {e : ι} {transform : Transform ι} :
      call.frame.match? catalogue call.value = some (e, transform) →
        Reports catalogue call (.extensionMatched call.frame.path (catalogue e).name)
  | transform {call : Call ι} {e : ι} {transform : Transform ι} {event : Event} :
      call.frame.match? catalogue call.value = some (e, transform) →
        (transform call.frame.input).Reports event → Reports catalogue call event
  | object {frame : Frame ι} {members : List (String × Json)} {children : List (String × Node)}
      {event : Event} :
      frame.match? catalogue (.object members) = none →
        event ∈ (ObjectStep.run frame.path ⟨[frame.source], .object members, frame.metadata⟩
          children).events →
        Reports catalogue ⟨frame, .object members⟩ event

/-- Descending reports what the calls for the children report, and then what putting them together
does. -/
theorem reports_or_exists_enters {evaluate : Frame ι → Json → Run Node} {call : Call ι}
    {event : Event} (hnone : call.frame.match? catalogue call.value = none)
    (h : event ∈ (descend evaluate call.frame call.value).reported) :
    Reports catalogue call event ∨
      ∃ inner, Enters catalogue call inner ∧
        event ∈ (evaluate inner.frame inner.value).reported := by
  obtain ⟨frame, value⟩ := call
  cases value with
  | array items =>
      rcases Run.mem_reported_bind h with hitems | ⟨children, hpure⟩
      · obtain ⟨i, item, hitem, hmem⟩ := exists_of_mem_reported_besideItems hitems
        rw [Nat.zero_add] at hmem
        exact .inr ⟨_, .item hnone hitem, hmem⟩
      · exact absurd hpure List.not_mem_nil
  | object members =>
      rcases Run.mem_reported_bind h with hmembers | ⟨children, hrun⟩
      · obtain ⟨entry, hentry, hmem⟩ := exists_of_mem_reported_besideMembers hmembers
        exact .inr ⟨_, .member hnone hentry, hmem⟩
      · rw [Run.reported_ofLogged] at hrun
        exact .inl (.object hnone hrun)
  | _ => exact absurd h List.not_mem_nil

/-- Whatever the evaluation of a call reports is reported at a call that it comes to make. -/
theorem exists_makes_of_mem_reported {limit : Nat} (call : Call ι) {event : Event}
    (h : event ∈ (evaluateNode catalogue limit call.frame call.value).reported) :
    ∃ last, Relation.ReflTransGen (Makes catalogue) call last ∧ Reports catalogue last event := by
  induction limit generalizing call with
  | zero => exact absurd h List.not_mem_nil
  | succ n ih =>
      have hbelow : ∀ inner, Makes catalogue call inner →
          event ∈ (evaluateNode catalogue n inner.frame inner.value).reported →
            ∃ last, Relation.ReflTransGen (Makes catalogue) call last ∧
              Reports catalogue last event := by
        intro inner hmakes hmem
        obtain ⟨last, hlast, hreports⟩ := ih inner hmem
        exact ⟨last, hlast.head hmakes, hreports⟩
      rw [evaluateNode] at h
      cases hmatch : call.frame.match? catalogue call.value with
      | none =>
          rw [hmatch] at h
          rcases reports_or_exists_enters hmatch h with hhere | ⟨inner, henters, hmem⟩
          · exact ⟨call, .refl, hhere⟩
          · exact hbelow inner (.below henters) hmem
      | some found =>
          obtain ⟨e, transform⟩ := found
          rw [hmatch] at h
          rcases Run.mem_reported_bind h with hmatched | ⟨-, hrun⟩
          · obtain rfl := List.mem_singleton.1 hmatched
            exact ⟨call, .refl, .matched hmatch⟩
          · rcases Program.mem_reported_run hrun with hhere | ⟨v, overrides, hasks, hmem⟩
            · exact ⟨call, .refl, .transform hmatch hhere⟩
            · exact hbelow _ (.again (.intro hmatch hasks)) hmem

end Call

/-! ### Evaluations -/

namespace Evaluator

variable {ι : Type} [DecidableEq ι] {catalogue : Catalogue ι} {ev : Evaluator ι} {limit : Nat}
  {raw : Json} {source : Source}

/-- Whatever an evaluation reports is reported at a call that it reaches. -/
theorem exists_reached_of_mem_reported {event : Event}
    (h : event ∈ (ev.evaluateWithin catalogue limit raw source).reported) :
    ∃ outer here call, Call.Reached catalogue ev raw source outer here call ∧
      call.Reports catalogue event := by
  obtain ⟨call, hmakes, hreports⟩ := Call.exists_makes_of_mem_reported ⟨_, raw⟩ h
  obtain ⟨outer, here, hreached⟩ := (Call.exists_reached_iff catalogue ev raw source).2 hmakes
  exact ⟨outer, here, call, hreached, hreports⟩

/-- Unless a transform reports it by itself, an extension that is reported as matched did match at
the end of a chain of calls, at the node whose path is reported, and it is told apart from all that
was used along the chain. -/
theorem exists_chain_of_extensionMatched {path name : String}
    (hsilent : catalogue.Programs fun p => ¬ p.Reports (.extensionMatched path name))
    (h : .extensionMatched path name ∈ (ev.evaluateWithin catalogue limit raw source).reported) :
    ∃ first used call e transform, Call.Begins catalogue ev raw source first ∧
      Call.Chain catalogue first used call ∧
      call.frame.match? catalogue call.value = some (e, transform) ∧
      (∀ d ∈ used, Distinguished catalogue d e) ∧
      call.frame.path = path ∧ (catalogue e).name = name := by
  obtain ⟨call, hmakes, hreports⟩ := Call.exists_makes_of_mem_reported ⟨_, raw⟩ h
  obtain ⟨first, used, hbegins, hchain⟩ := Call.exists_chain_iff.2 hmakes
  cases hreports with
  | matched hmatch =>
      have hdistinguished := hchain.distinguished_of_match? hbegins.visited_eq_nil hmatch
      exact ⟨first, used, call, _, _, hbegins, hchain, hmatch, hdistinguished, rfl, rfl⟩
  | transform hmatch hown => exact absurd hown ((hsilent _).of_match? hmatch)
  | object _ hmem => exact absurd hmem (ObjectStep.extensionMatched_not_mem_events_run _ _)

end Evaluator

end LayeredConfig
