import Mathlib.Data.List.Basic
import LayeredConfig.Evaluation.Loading
import LayeredConfig.Extension.Builtin

/-!
# Which layers are folded

Loading goes through the sources one by one; `result_loadLayers` says at once what comes of it,
from the outcome of every source on its own: the first failure that is not a missing layer, else
the fold of the trees that loaded, else the last report that something is missing. A source is
skipped when its *load* reports something missing, and a load is a read and an evaluation. The
main statement, `skipsOnlyMissing_iff`, says when that skips no source that can be read: exactly
when no tree comes of loading while a directive in one of the layers reports something missing.
-/

namespace LayeredConfig

namespace Evaluator

variable {ι : Type} [DecidableEq ι] (setting : Setting ι) (ev : Evaluator ι)

/-! ### The outcome of one source -/

/-- The tree of a source that loads. -/
def loaded? (source : Source) : Option Node := (ev.load setting source).result.toOption

/-- The report of a source whose load says that something is missing. -/
def missing? (source : Source) : Option ConfigError :=
  match (ev.load setting source).result with
  | .error (.failed e) => if e.isNotFound then some e else none
  | _ => none

/-- Why a source neither loads nor is skipped. -/
def fatal? (source : Source) : Option Stop :=
  match (ev.load setting source).result with
  | .ok _ => none
  | .error (.failed e) => if e.isNotFound then none else some (.failed e)
  | .error .tooDeep => some .tooDeep

/-- The source can be read, and the evaluation of what was read reports something missing. -/
def MissingBelow (source : Source) : Prop :=
  ∃ raw origin e, (source.read setting.host).result = .ok (raw, origin) ∧
    (ev.evaluate setting raw origin).result = .error (.failed e) ∧ e.isNotFound = true

theorem result_load_of_read {source : Source} {raw : Json} {origin : Source}
    (h : (source.read setting.host).result = .ok (raw, origin)) :
    (ev.load setting source).result = (ev.evaluate setting raw origin).result := by
  rw [load, Run.result_bind, Run.result_ofLogged, h]
  change (Run.report _ >>= fun _ => ev.evaluate setting raw origin).result = _
  rw [Run.result_bind, Run.result_report]
  rfl

theorem result_load_of_unread {source : Source} {e : ConfigError}
    (h : (source.read setting.host).result = .error e) :
    (ev.load setting source).result = .error (.failed e) := by
  rw [load, Run.result_bind, Run.result_ofLogged, h]
  rfl

/-! ### The outcome of all sources -/

/-- What comes of loading sources over layers that are there already. -/
theorem result_loadOver (layers : List Node) (missing : Option ConfigError)
    (sources : List Source) :
    (ev.loadOver setting layers missing sources).result =
      match sources.findSome? (ev.fatal? setting) with
      | some stop => .error stop
      | none =>
        match Node.mergeAll (layers ++ sources.filterMap (ev.loaded? setting)) with
        | some tree => .ok tree
        | none =>
          .error (.failed (((sources.filterMap (ev.missing? setting)).getLast?.or missing).getD
            (.notFound "layers" "no sources were supplied"))) := by
  induction sources generalizing layers missing with
  | nil =>
      rw [loadOver, List.findSome?_nil, List.filterMap_nil, List.append_nil]
      cases Node.mergeAll layers with
      | some tree => rfl
      | none => rfl
  | cons source rest ih =>
      rw [loadOver, Run.result_bind, Run.result_attempt, List.findSome?_cons,
        List.filterMap_cons, List.filterMap_cons]
      cases hload : (ev.load setting source).result with
      | ok layer =>
          have hfatal : ev.fatal? setting source = none := by rw [fatal?, hload]
          have hloaded : ev.loaded? setting source = some layer := by rw [loaded?, hload]; rfl
          have hmissing : ev.missing? setting source = none := by rw [missing?, hload]
          rw [hfatal, hloaded, hmissing]
          change (loadOver setting ev (layers ++ [layer]) missing rest).result = _
          rw [ih, List.append_assoc, List.singleton_append]
      | error stop =>
          have hloaded : ev.loaded? setting source = none := by rw [loaded?, hload]; rfl
          cases stop with
          | tooDeep =>
              have hfatal : ev.fatal? setting source = some .tooDeep := by rw [fatal?, hload]
              rw [hfatal]
              rfl
          | failed e =>
              cases he : e.isNotFound with
              | false =>
                  have hfatal : ev.fatal? setting source = some (.failed e) := by
                    simp [fatal?, hload, he]
                  rw [hfatal]
                  simp only [Except.bind, he]
                  rfl
              | true =>
                  have hfatal : ev.fatal? setting source = none := by simp [fatal?, hload, he]
                  have hmissing : ev.missing? setting source = some e := by
                    simp [missing?, hload, he]
                  rw [hfatal, hloaded, hmissing]
                  simp only [Except.bind, he, if_true]
                  rw [Run.result_bind, Run.result_report]
                  change (loadOver setting ev layers (some e) rest).result = _
                  rw [ih, List.getLast?_cons]
                  cases (rest.filterMap (ev.missing? setting)).getLast? <;> rfl

theorem result_loadLayers (sources : List Source) :
    (ev.loadLayers setting sources).result =
      match sources.findSome? (ev.fatal? setting) with
      | some stop => .error stop
      | none =>
        match Node.mergeAll (sources.filterMap (ev.loaded? setting)) with
        | some tree => .ok tree
        | none =>
          .error (.failed ((sources.filterMap (ev.missing? setting)).getLast?.getD
            (.notFound "layers" "no sources were supplied"))) := by
  rw [loadLayers, result_loadOver, List.nil_append, Option.or_none]

theorem fatal?_of_loadLayers {sources : List Source} {tree : Node}
    (h : (ev.loadLayers setting sources).result = .ok tree) :
    ∀ source ∈ sources, ev.fatal? setting source = none := by
  rw [result_loadLayers] at h
  cases hfatal : sources.findSome? (ev.fatal? setting) with
  | some stop => simp [hfatal] at h
  | none => exact List.findSome?_eq_none_iff.1 hfatal

theorem mergeAll_of_loadLayers {sources : List Source} {tree : Node}
    (h : (ev.loadLayers setting sources).result = .ok tree) :
    Node.mergeAll (sources.filterMap (ev.loaded? setting)) = some tree := by
  have hfatal := List.findSome?_eq_none_iff.2 (ev.fatal?_of_loadLayers setting h)
  rw [result_loadLayers, hfatal] at h
  cases hfold : Node.mergeAll (sources.filterMap (ev.loaded? setting)) with
  | none => simp [hfold] at h
  | some folded =>
      simp only [hfold, Except.ok.injEq] at h
      rw [h]

/-- Loading succeeds exactly when every source loads or is skipped and some source loads. -/
theorem exists_loadLayers_eq_ok_iff (sources : List Source) :
    (∃ tree, (ev.loadLayers setting sources).result = .ok tree) ↔
      (∀ source ∈ sources, ev.fatal? setting source = none) ∧
        ∃ source ∈ sources, (ev.loaded? setting source).isSome = true := by
  constructor
  · rintro ⟨tree, h⟩
    refine ⟨ev.fatal?_of_loadLayers setting h, ?_⟩
    have hfold := ev.mergeAll_of_loadLayers setting h
    cases hloaded : sources.filterMap (ev.loaded? setting) with
    | nil => simp [hloaded, Node.mergeAll] at hfold
    | cons layer rest =>
        have hlayer : layer ∈ sources.filterMap (ev.loaded? setting) := by
          rw [hloaded]
          exact List.mem_cons_self
        obtain ⟨source, hsource, heq⟩ := List.mem_filterMap.1 hlayer
        exact ⟨source, hsource, by rw [heq]; rfl⟩
  · rintro ⟨hfatal, source, hsource, hsome⟩
    obtain ⟨layer, hlayer⟩ := Option.isSome_iff_exists.1 hsome
    have hmem : layer ∈ sources.filterMap (ev.loaded? setting) :=
      List.mem_filterMap.2 ⟨source, hsource, hlayer⟩
    obtain ⟨first, rest, hloaded⟩ := List.exists_cons_of_ne_nil (List.ne_nil_of_mem hmem)
    refine ⟨rest.foldl Node.merge first, ?_⟩
    rw [result_loadLayers, List.findSome?_eq_none_iff.2 hfatal, hloaded]
    rfl

/-! ### Skipping what is missing and nothing else -/

/-- What the sources that can be read hold, with their origins. -/
def readable (host : Host) (sources : List Source) : List (Json × Source) :=
  sources.filterMap fun source => (source.read host).result.toOption

/-- Loading skips a source only because the source itself is missing. -/
structure SkipsOnlyMissing (sources : List Source) : Prop where
  /-- A tree folds one layer for every source that can be read, in the order of the sources. -/
  folded : ∀ tree, (ev.loadLayers setting sources).result = .ok tree →
    ∃ layers, Node.mergeAll layers = some tree ∧
      (readable setting.host sources).map
          (fun (raw, origin) => (ev.evaluate setting raw origin).result) = layers.map .ok
  /-- Loading fails when the evaluation of a source that can be read fails, however it does. -/
  unevaluated : ∀ source ∈ sources, ∀ raw origin e,
    (source.read setting.host).result = .ok (raw, origin) →
    (ev.evaluate setting raw origin).result = .error (.failed e) →
      ∃ stop, (ev.loadLayers setting sources).result = .error stop
  /-- Loading fails when reading a source fails, unless the source is missing. -/
  unread : ∀ source ∈ sources, ∀ e, (source.read setting.host).result = .error e →
    e.isNotFound = false → ∃ stop, (ev.loadLayers setting sources).result = .error stop

/-- A source that neither stops loading nor has something missing below it loads if it can be
read. -/
theorem map_read_eq_loaded {source : Source} (hfatal : ev.fatal? setting source = none)
    (hbelow : ¬ ev.MissingBelow setting source) :
    (source.read setting.host).result.toOption.map
        (fun (raw, origin) => (ev.evaluate setting raw origin).result) =
      (ev.loaded? setting source).map .ok := by
  cases hread : (source.read setting.host).result with
  | error e => rw [loaded?, ev.result_load_of_unread setting hread]; rfl
  | ok found =>
      obtain ⟨raw, origin⟩ := found
      have hload := ev.result_load_of_read setting hread
      rw [fatal?, hload] at hfatal
      rw [loaded?, hload]
      cases heval : (ev.evaluate setting raw origin).result with
      | ok layer => simp [Except.toOption, heval]
      | error stop =>
          cases stop with
          | tooDeep => simp [heval] at hfatal
          | failed e =>
              refine absurd ⟨raw, origin, e, hread, heval, ?_⟩ hbelow
              simpa [heval] using hfatal

/-- When loading skips only sources that are missing: exactly when it does not give a tree, or
no source that can be read reports something missing when it is evaluated. -/
theorem skipsOnlyMissing_iff (sources : List Source) :
    ev.SkipsOnlyMissing setting sources ↔
      ((∀ source ∈ sources, ev.fatal? setting source = none) →
        (∃ source ∈ sources, (ev.loaded? setting source).isSome = true) →
          ∀ source ∈ sources, ¬ ev.MissingBelow setting source) := by
  constructor
  · rintro h hfatal hsome source hsource ⟨raw, origin, e, hread, heval, -⟩
    obtain ⟨tree, htree⟩ := (ev.exists_loadLayers_eq_ok_iff setting sources).2 ⟨hfatal, hsome⟩
    obtain ⟨stop, hstop⟩ := h.unevaluated source hsource raw origin e hread heval
    rw [htree] at hstop
    cases hstop
  · intro h
    have hbelow : ∀ tree, (ev.loadLayers setting sources).result = .ok tree →
        ∀ source ∈ sources, ¬ ev.MissingBelow setting source := by
      intro tree htree
      obtain ⟨hfatal, hsome⟩ := (ev.exists_loadLayers_eq_ok_iff setting sources).1 ⟨tree, htree⟩
      exact h hfatal hsome
    refine ⟨fun tree htree => ?_, fun source hsource raw origin e hread heval => ?_,
      fun source hsource e hread he => ?_⟩
    · refine ⟨_, ev.mergeAll_of_loadLayers setting htree, ?_⟩
      rw [readable, List.map_filterMap, List.map_filterMap]
      apply List.filterMap_congr
      intro source hsource
      exact ev.map_read_eq_loaded setting (ev.fatal?_of_loadLayers setting htree source hsource)
        (hbelow tree htree source hsource)
    · cases hresult : (ev.loadLayers setting sources).result with
      | error stop => exact ⟨stop, rfl⟩
      | ok tree =>
          -- The failure is either fatal or something missing below, and neither lets a tree pass.
          have hfatal := ev.fatal?_of_loadLayers setting hresult source hsource
          rw [fatal?, ev.result_load_of_read setting hread, heval] at hfatal
          refine absurd ⟨raw, origin, e, hread, heval, ?_⟩ (hbelow tree hresult source hsource)
          simpa using hfatal
    · cases hresult : (ev.loadLayers setting sources).result with
      | error stop => exact ⟨stop, rfl⟩
      | ok tree =>
          have hfatal := ev.fatal?_of_loadLayers setting hresult source hsource
          rw [fatal?, ev.result_load_of_unread setting hread] at hfatal
          simp [he] at hfatal

def bareHost : Host := ⟨[], []⟩

/-- A directive that reads a variable, which `bareHost` does not have, in place of its node. -/
def readVariable : Extension Unit :=
  .keyDirective "$env" fun _ _ => do
    let (raw, origin) ← Program.ofLogged ((Source.variable 2 "SITE" .json).read bareHost)
    .evaluate raw { source := origin }

/-- A setting in which the only extension is that directive. -/
def bareSetting : Setting Unit := ⟨bareHost, fun _ => readVariable, 8⟩

def plainLayer : Source := .literal 0 (.object [("port", .ofInt 1)])

def directiveValue : Json := .object [("db", .object [("$env", .null)])]

def directiveLayer : Source := .literal 1 directiveValue

/-- A layer that can be read is skipped: its directive reports a missing variable, and loading
succeeds with the other layer alone. -/
theorem loadLayers_skips_readable :
    (directiveLayer.read bareHost).result = .ok (directiveValue, directiveLayer) ∧
    ((Evaluator.mk [()] .empty .empty).evaluate bareSetting directiveValue directiveLayer).result =
      .error (.failed (.notFound "environment variable SITE" "variable is not set")) ∧
    (∃ tree, ((Evaluator.mk [()] .empty .empty).loadLayers bareSetting
      [plainLayer, directiveLayer]).result = .ok tree ∧
        tree.toJson = .object [("port", .ofInt 1)]) ∧
    ¬ (Evaluator.mk [()] .empty .empty).SkipsOnlyMissing bareSetting
      [plainLayer, directiveLayer] := by
  have hread : (directiveLayer.read bareHost).result = .ok (directiveValue, directiveLayer) := rfl
  have heval : ((Evaluator.mk [()] .empty .empty).evaluate bareSetting directiveValue
      directiveLayer).result =
        .error (.failed (.notFound "environment variable SITE" "variable is not set")) := rfl
  refine ⟨hread, heval, ⟨_, rfl, by decide⟩, fun h => ?_⟩
  obtain ⟨stop, hstop⟩ := h.unevaluated directiveLayer (by simp) _ _ _ hread heval
  cases hstop

end Evaluator

end LayeredConfig
