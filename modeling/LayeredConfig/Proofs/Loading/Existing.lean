import LayeredConfig.Proofs.Loading.Layers

/-!
# Layers that are not there

What comes of loading is read off the outcomes of the sources, each loaded on its own: the first
failure that is not a missing layer, else the fold of the trees, else the last report that something
is missing (`Evaluator.loadLayers_folds_existing`). A source that is missing has no part in the
first two, so any number of them can stand among the others (`Padded`) without changing a tree or a
failure of another kind.
-/

namespace LayeredConfig

/-- The run stopped because something is missing. -/
def Stop.Missing (stop : Stop) : Prop := ∃ e, stop = .failed e ∧ e.isNotFound = true

/-- The second list is the first one with elements that satisfy `P` put in at any places. -/
inductive Padded {α : Type} (P : α → Prop) : List α → List α → Prop
  | nil : Padded P [] []
  | keep {x : α} {xs ys : List α} : Padded P xs ys → Padded P (x :: xs) (x :: ys)
  | put {x : α} {xs ys : List α} : P x → Padded P xs ys → Padded P xs (x :: ys)

theorem Padded.filterMap_eq {α β : Type} {P : α → Prop} {f : α → Option β} {xs ys : List α}
    (h : Padded P xs ys) (hf : ∀ x, P x → f x = none) : ys.filterMap f = xs.filterMap f := by
  induction h with
  | nil => rfl
  | keep _ ih => rw [List.filterMap_cons, List.filterMap_cons, ih]
  | put hx _ ih => rw [List.filterMap_cons, hf _ hx, ih]

theorem Padded.findSome?_eq {α β : Type} {P : α → Prop} {f : α → Option β} {xs ys : List α}
    (h : Padded P xs ys) (hf : ∀ x, P x → f x = none) : ys.findSome? f = xs.findSome? f := by
  rw [← List.head?_filterMap, ← List.head?_filterMap, h.filterMap_eq hf]

namespace Evaluator

variable {ι : Type} [DecidableEq ι] (setting : Setting ι) (ev : Evaluator ι)

/-- Loading the source reports that something is missing. -/
def Absent (source : Source) : Prop :=
  ∃ stop, (ev.load setting source).result = .error stop ∧ stop.Missing

variable {setting ev}

theorem fatal?_eq_some_iff {source : Source} {stop : Stop} :
    ev.fatal? setting source = some stop ↔
      (ev.load setting source).result = .error stop ∧ ¬ stop.Missing := by
  unfold fatal?
  cases (ev.load setting source).result with
  | ok layer => simp
  | error s =>
      cases s with
      | tooDeep => simpa [Stop.Missing] using fun h => h ▸ nofun
      | failed e =>
          cases he : e.isNotFound with
          | true => simpa [he] using fun h => ⟨e, h.symm, he⟩
          | false =>
              simp only [he, Bool.false_eq_true, if_false, Option.some.injEq, Except.error.injEq]
              refine (and_iff_left_of_imp fun h => ?_).symm
              rintro ⟨other, hother, hmissing⟩
              rw [← h] at hother
              rw [← Stop.failed.inj hother, he] at hmissing
              cases hmissing

theorem fatal?_eq_none_iff {source : Source} :
    ev.fatal? setting source = none ↔
      ∀ stop, (ev.load setting source).result = .error stop → stop.Missing := by
  rw [Option.eq_none_iff_forall_ne_some]
  refine forall_congr' fun stop => ?_
  rw [ne_eq, fatal?_eq_some_iff, not_and, not_not]

theorem Absent.fatal? {source : Source} (h : ev.Absent setting source) :
    ev.fatal? setting source = none := by
  obtain ⟨stop, hload, hmissing⟩ := h
  refine fatal?_eq_none_iff.2 fun other hother => ?_
  rw [hload] at hother
  rwa [← Except.error.inj hother]

theorem Absent.loaded? {source : Source} (h : ev.Absent setting source) :
    ev.loaded? setting source = none := by
  obtain ⟨stop, hload, -⟩ := h
  rw [Evaluator.loaded?, hload]
  rfl

theorem missing?_eq_some_iff {source : Source} {e : ConfigError} :
    ev.missing? setting source = some e ↔
      (ev.load setting source).result = .error (.failed e) ∧ e.isNotFound = true := by
  refine ⟨fun h => ?_, fun ⟨hload, he⟩ => by simp [missing?, hload, he]⟩
  unfold missing? at h
  cases hload : (ev.load setting source).result with
  | ok layer => simp [hload] at h
  | error stop =>
      cases stop with
      | tooDeep => simp [hload] at h
      | failed other =>
          rw [hload] at h
          obtain ⟨hother, heq⟩ := Option.ite_none_right_eq_some.1 h
          obtain rfl := Option.some.inj heq
          exact ⟨rfl, hother⟩

/-- The failure of loading when no source loads is a report that something is missing. -/
theorem missing_lastReport (sources : List Source) :
    (Stop.failed ((sources.filterMap (ev.missing? setting)).getLast?.getD
      (.notFound "layers" "no sources were supplied"))).Missing := by
  refine ⟨_, rfl, ?_⟩
  cases hlast : (sources.filterMap (ev.missing? setting)).getLast? with
  | none => rfl
  | some e =>
      obtain ⟨source, -, he⟩ := List.mem_filterMap.1 (List.mem_of_getLast? hlast)
      exact (missing?_eq_some_iff.1 he).2

/-- When every layer is missing, the last report is what comes of loading. -/
theorem result_loadLayers_of_absent {others : List Source} {last : Source} {stop : Stop}
    (habsent : ∀ s ∈ others ++ [last], ev.Absent setting s)
    (hload : (ev.load setting last).result = .error stop) :
    (ev.loadLayers setting (others ++ [last])).result = .error stop := by
  obtain ⟨e, rfl, he⟩ : stop.Missing := by
    obtain ⟨other, hother, hmissing⟩ := habsent last (by simp)
    rw [hload] at hother
    rwa [Except.error.inj hother]
  have hfatal : (others ++ [last]).findSome? (ev.fatal? setting) = none :=
    List.findSome?_eq_none_iff.2 fun s hs => (habsent s hs).fatal?
  have hloaded : (others ++ [last]).filterMap (ev.loaded? setting) = [] :=
    List.filterMap_eq_nil_iff.2 fun s hs => (habsent s hs).loaded?
  have hlast : ev.missing? setting last = some e := missing?_eq_some_iff.2 ⟨hload, he⟩
  rw [result_loadLayers, hfatal, hloaded, List.filterMap_append, List.filterMap_cons, hlast,
    List.filterMap_nil, List.getLast?_concat]
  rfl

/-- Missing layers put in among the others change no tree and no failure but which of them is
named. -/
theorem result_loadLayers_padded {sources padded : List Source}
    (hpadded : Padded (ev.Absent setting) sources padded) :
    (∀ tree, (ev.loadLayers setting padded).result = .ok tree ↔
      (ev.loadLayers setting sources).result = .ok tree) ∧
    ∀ stop, ¬ stop.Missing → ((ev.loadLayers setting padded).result = .error stop ↔
      (ev.loadLayers setting sources).result = .error stop) := by
  have hfatal := hpadded.findSome?_eq fun s (hs : ev.Absent setting s) => hs.fatal?
  have hloaded := hpadded.filterMap_eq fun s (hs : ev.Absent setting s) => hs.loaded?
  rw [result_loadLayers, result_loadLayers, hfatal, hloaded]
  cases sources.findSome? (ev.fatal? setting) with
  | some stop => exact ⟨fun tree => Iff.rfl, fun stop _ => Iff.rfl⟩
  | none =>
      cases Node.mergeAll (sources.filterMap (ev.loaded? setting)) with
      | some tree => exact ⟨fun tree => Iff.rfl, fun stop _ => Iff.rfl⟩
      | none =>
          -- Nothing loads, so both lists end in a report that something is missing.
          refine ⟨fun tree => ⟨fun h => ?_, fun h => ?_⟩,
            fun stop hstop => ⟨fun h => ?_, fun h => ?_⟩⟩
          · cases h
          · cases h
          · exact absurd (Except.error.inj h ▸ missing_lastReport padded) hstop
          · exact absurd (Except.error.inj h ▸ missing_lastReport sources) hstop

/-- What comes of loading is decided by the sources, each on its own: the first failure that is not
a missing layer, else the fold of the trees that loaded, else the last report of a missing layer.
Missing layers put in among the others change no tree and no other failure. -/
theorem loadLayers_folds_existing (setting : Setting ι) (ev : Evaluator ι)
    (sources : List Source) :
    (∀ before source after stop, sources = before ++ source :: after →
      (∀ s ∈ before, ∀ other, (ev.load setting s).result = .error other → other.Missing) →
      (ev.load setting source).result = .error stop → ¬ stop.Missing →
        (ev.loadLayers setting sources).result = .error stop) ∧
    ((∀ s ∈ sources, ∀ stop, (ev.load setting s).result = .error stop → stop.Missing) →
      (∃ s ∈ sources, ∃ layer, (ev.load setting s).result = .ok layer) →
        ∃ tree, (ev.loadLayers setting sources).result = .ok tree ∧
          Node.mergeAll (sources.filterMap fun s => (ev.load setting s).result.toOption) =
            some tree) ∧
    (∀ others last stop, sources = others ++ [last] → (∀ s ∈ sources, ev.Absent setting s) →
      (ev.load setting last).result = .error stop →
        (ev.loadLayers setting sources).result = .error stop) ∧
    (sources = [] → ∃ e, (ev.loadLayers setting sources).result = .error (.failed e) ∧
      e.isNotFound = true) ∧
    (∀ padded, Padded (ev.Absent setting) sources padded →
      (∀ tree, (ev.loadLayers setting padded).result = .ok tree ↔
        (ev.loadLayers setting sources).result = .ok tree) ∧
      ∀ stop, ¬ stop.Missing → ((ev.loadLayers setting padded).result = .error stop ↔
        (ev.loadLayers setting sources).result = .error stop)) := by
  refine ⟨?first, ?folded, ?last, ?own, ?padded⟩
  case first =>
    rintro before source after stop rfl hbefore hload hstop
    have hnone : before.findSome? (ev.fatal? setting) = none :=
      List.findSome?_eq_none_iff.2 fun s hs => fatal?_eq_none_iff.2 (hbefore s hs)
    have hsome : ev.fatal? setting source = some stop := fatal?_eq_some_iff.2 ⟨hload, hstop⟩
    rw [result_loadLayers, List.findSome?_append, hnone, List.findSome?_cons, hsome]
    rfl
  case folded =>
    rintro hmissing ⟨s, hs, layer, hload⟩
    have hfatal : ∀ s ∈ sources, ev.fatal? setting s = none :=
      fun s hs => fatal?_eq_none_iff.2 (hmissing s hs)
    have hsome : (ev.loaded? setting s).isSome = true := by rw [loaded?, hload]; rfl
    obtain ⟨tree, htree⟩ :=
      (ev.exists_loadLayers_eq_ok_iff setting sources).2 ⟨hfatal, s, hs, hsome⟩
    exact ⟨tree, htree, ev.mergeAll_of_loadLayers setting htree⟩
  case last =>
    rintro others last stop rfl habsent hload
    exact result_loadLayers_of_absent habsent hload
  case own =>
    rintro rfl
    exact ⟨_, rfl, rfl⟩
  case padded => exact fun padded => result_loadLayers_padded

/-- A source that `bareHost` does not have. -/
def absentLayer : Source := .variable 3 "SITE" .json

/-- A source that is there and cannot be understood. -/
def brokenLayer : Source :=
  .custom 4 "broken layer" fun _ => .error (.parse "broken layer" .json)

/-- A layer that goes over `plainLayer`. -/
def upperLayer : Source := .literal 5 (.object [("port", .ofInt 2)])

/-- Missing layers among others, before a broken one, and alone. -/
theorem loadLayers_folds_existing_layers :
    ((Evaluator.mk [()] .empty .empty).loadLayers bareSetting
      [plainLayer, absentLayer, brokenLayer, upperLayer]).result =
        .error (.failed (.parse "broken layer" .json)) ∧
    (∃ tree, ((Evaluator.mk [()] .empty .empty).loadLayers bareSetting
      [plainLayer, upperLayer]).result = .ok tree ∧
        tree.toJson = .object [("port", .ofInt 2)] ∧
        ((Evaluator.mk [()] .empty .empty).loadLayers bareSetting
          [absentLayer, plainLayer, absentLayer, directiveLayer, upperLayer]).result = .ok tree) ∧
    ((Evaluator.mk [()] .empty .empty).loadLayers bareSetting
      [directiveLayer, absentLayer]).result =
        .error (.failed (.notFound "environment variable SITE" "variable is not set")) := by
  have habsent : (Evaluator.mk [()] .empty .empty).Absent bareSetting absentLayer :=
    ⟨_, rfl, _, rfl, rfl⟩
  have hdirective : (Evaluator.mk [()] .empty .empty).Absent bareSetting directiveLayer :=
    ⟨_, rfl, _, rfl, rfl⟩
  have hplain : ∀ stop, ((Evaluator.mk [()] .empty .empty).load bareSetting plainLayer).result =
      .error stop → stop.Missing := fun _ => nofun
  have hupper : ∀ stop, ((Evaluator.mk [()] .empty .empty).load bareSetting upperLayer).result =
      .error stop → stop.Missing := fun _ => nofun
  refine ⟨?broken, ?padded, ?last⟩
  case broken =>
    obtain ⟨hfirst, -⟩ := loadLayers_folds_existing bareSetting (Evaluator.mk [()] .empty .empty)
      [plainLayer, absentLayer, brokenLayer, upperLayer]
    refine hfirst [plainLayer, absentLayer] brokenLayer [upperLayer] _ rfl ?_ rfl ?_
    · intro s hs stop hstop
      rcases List.mem_pair.1 hs with rfl | rfl
      · exact hplain stop hstop
      · exact fatal?_eq_none_iff.1 habsent.fatal? stop hstop
    · rintro ⟨e, he, hmissing⟩
      cases he
      cases hmissing
  case padded =>
    obtain ⟨-, hfolded, -, -, hpadded⟩ := loadLayers_folds_existing bareSetting
      (Evaluator.mk [()] .empty .empty) [plainLayer, upperLayer]
    obtain ⟨tree, htree, hfold⟩ := hfolded
      (fun s hs stop hstop => by
        rcases List.mem_pair.1 hs with rfl | rfl
        · exact hplain stop hstop
        · exact hupper stop hstop)
      ⟨plainLayer, by simp, _, rfl⟩
    refine ⟨tree, htree, ?_, ((hpadded _ ?_).1 tree).2 htree⟩
    · rw [← Option.some.inj hfold]
      decide
    · exact .put habsent (.keep (.put habsent (.put hdirective (.keep .nil))))
  case last =>
    obtain ⟨-, -, hlast, -⟩ := loadLayers_folds_existing bareSetting
      (Evaluator.mk [()] .empty .empty) [directiveLayer, absentLayer]
    refine hlast [directiveLayer] absentLayer _ rfl (fun s hs => ?_) rfl
    rcases List.mem_pair.1 hs with rfl | rfl
    · exact hdirective
    · exact habsent

end Evaluator

end LayeredConfig
