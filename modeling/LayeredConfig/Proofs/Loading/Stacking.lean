import LayeredConfig.Proofs.Evaluation.Idle
import LayeredConfig.Proofs.Loading.Layers
import LayeredConfig.Proofs.Source.Distinct

/-!
# Two ways of stacking sources

Sources can be stacked before or after they are evaluated: a combination overlays their values and
is evaluated once, and loading layers evaluates every value and merges the trees. Without extensions
both come to the same value or to the same failure (`Evaluator.stacked_agree`). Both are functions
of one thing, what reading the sources one after the other gives (`Source.readAll`): up to the first
failure there is nothing to tell them apart, and behind it neither goes on.
-/

namespace LayeredConfig

namespace Json

theorem membersDepth_le_iff {members : List (String × Json)} {n : Nat} :
    membersDepth members ≤ n ↔ ∀ entry ∈ members, entry.2.depth ≤ n := by
  induction members with
  | nil => simp [membersDepth]
  | cons entry rest ih => rw [membersDepth, Nat.max_le, ih, List.forall_mem_cons]

/-- Laying one document over another makes nothing deeper. -/
theorem depth_overlay_le (a b : Document) :
    ((a : Json).overlay b).depth ≤ max (a : Json).depth (b : Json).depth := by
  induction a using Document.induct generalizing b with
  | object members ha ih =>
      obtain ⟨b, hb⟩ := b
      by_cases hobj : b.type = .object
      · cases b with
        | object upper =>
            rw [overlay_eq_unionWith ha hb, depth, depth, depth, Nat.add_max_add_right,
              Nat.add_le_add_iff_right, membersDepth_le_iff]
            intro entry hentry
            rcases Members.mem_unionWith hentry with h | h | ⟨x, y, hx, hy, heq⟩
            · have := depth_le_membersDepth h
              omega
            · have := depth_le_membersDepth h
              omega
            · have hle : (x.overlay y).depth ≤ max x.depth y.depth :=
                ih (entry.1, x) hx ⟨y, hb.member hy⟩
              have hx' : x.depth ≤ membersDepth members := depth_le_membersDepth hx
              have hy' : y.depth ≤ membersDepth upper := depth_le_membersDepth hy
              rw [heq]
              omega
        | _ => simp [type] at hobj
      · rw [overlay_of_layer_not_object (members?_eq_none_iff.2 hobj)]
        exact Nat.le_max_right _ _
  | other a ha =>
      rw [overlay_of_base_not_object (members?_eq_none_iff.2 ha)]
      exact Nat.le_max_right _ _

theorem depth_overlayAll_lt {base : Json} {layers : List Json} {limit : Nat}
    (hbase : base.Distinct) (hdepth : base.depth < limit)
    (hlayers : ∀ layer ∈ layers, layer.Distinct ∧ layer.depth < limit) :
    (base.overlayAll layers).depth < limit := by
  induction layers generalizing base with
  | nil => exact hdepth
  | cons layer rest ih =>
      obtain ⟨⟨hlayer, hlt⟩, hrest⟩ := List.forall_mem_cons.1 hlayers
      have hle : (base.overlay layer).depth ≤ max base.depth layer.depth :=
        depth_overlay_le ⟨base, hbase⟩ ⟨layer, hlayer⟩
      exact ih (hbase.overlay hlayer) (by omega) hrest

end Json

namespace Source

variable (host : Host)

theorem result_map_read {s : Source} (x : Logged Json)
    (h : read host s = x >>= fun v => pure (v, s)) :
    x.result = (read host s).result.map Prod.fst := by
  rw [h, Logged.result_bind]
  cases x.result <;> rfl

mutual

/-- Both ways of reading a source give its value, or fail with the same failure. -/
theorem result_readValue :
    ∀ s : Source, (readValue host s).result = (read host s).result.map Prod.fst
  | .fallback id members => by
      rw [readValue, read]
      exact result_firstValue _ members
  | .literal id value => rfl
  | .file id path => result_map_read host _ rfl
  | .variable id name format => result_map_read host _ rfl
  | .variables id start separator => result_map_read host _ rfl
  | .combined id members => result_map_read host _ rfl
  | .custom id description value => result_map_read host _ rfl

theorem result_firstValue (origin : String) : ∀ members : List Source,
    (firstValue host origin members).result = (firstRead host origin members).result.map Prod.fst
  | [] => rfl
  | s :: rest => by
      rw [firstValue, firstRead, Logged.result_orElseMissing, Logged.result_orElseMissing,
        result_readValue s]
      cases (read host s).result with
      | ok found => rfl
      | error e =>
          simp only [Except.map]
          split
          · exact result_firstValue origin rest
          · rfl

end

/-- What reading sources one after the other gives, up to the first failure. -/
def readAll (sources : List Source) : Except ConfigError (List (Json × Source)) :=
  sources.mapM fun s => (read host s).result

theorem readAll_cons (s : Source) (rest : List Source) :
    readAll host (s :: rest) =
      (read host s).result.bind fun found => (readAll host rest).map (found :: ·) := by
  rw [readAll, List.mapM_cons]
  rfl

theorem result_valueOver (base : Json) (sources : List Source) :
    (valueOver host base sources).result =
      (readAll host sources).map fun found => base.overlayAll (found.map Prod.fst) := by
  induction sources generalizing base with
  | nil => rfl
  | cons s rest ih =>
      rw [valueOver, Logged.result_bind, result_readValue, readAll_cons]
      cases (read host s).result with
      | error e => rfl
      | ok found =>
          simp only [Except.map, Except.bind]
          rw [ih]
          cases readAll host rest <;> rfl

/-- The values of a list laid over one another, the first one below. -/
def overlaid : List (Json × Source) → Json
  | [] => .null
  | first :: others => first.1.overlayAll (others.map Prod.fst)

variable {host}

/-- A combination of sources gives their values laid over one another, as its own value. -/
theorem result_read_combined (id : Nat) (first : Source) (rest : List Source) :
    (read host (.combined id (first :: rest))).result =
      (readAll host (first :: rest)).map fun found =>
        (overlaid found, .combined id (first :: rest)) := by
  have hread : read host (.combined id (first :: rest)) =
      readValue host (.combined id (first :: rest)) >>= fun v =>
        pure (v, .combined id (first :: rest)) := rfl
  rw [hread, Logged.result_bind, readValue, combinedValue, Logged.result_bind, result_readValue,
    readAll_cons]
  cases (read host first).result with
  | error e => rfl
  | ok found =>
      simp only [Except.map, Except.bind]
      rw [result_valueOver]
      cases readAll host rest <;> rfl

theorem Proper.distinct_read {s origin : Source} {raw : Json} (hs : s.Proper host)
    (h : (read host s).result = .ok (raw, origin)) : raw.Distinct := by
  refine hs.distinct_readValue ?_
  rw [result_readValue, h]
  rfl

theorem mem_readAll {sources : List Source} {found : List (Json × Source)}
    (h : readAll host sources = .ok found) {entry : Json × Source} (hentry : entry ∈ found) :
    ∃ s ∈ sources, (read host s).result = .ok entry := by
  induction sources generalizing found with
  | nil =>
      cases h
      cases hentry
  | cons s rest ih =>
      rw [readAll_cons] at h
      obtain ⟨first, hfirst, h⟩ := ok_of_bind h
      obtain ⟨others, hothers, rfl⟩ := ok_of_map h
      rcases List.mem_cons.1 hentry with rfl | hentry
      · exact ⟨s, List.mem_cons_self, hfirst⟩
      · obtain ⟨t, ht, hread⟩ := ih hothers hentry
        exact ⟨t, List.mem_cons_of_mem _ ht, hread⟩

end Source

namespace Node

/-- Trees in step fold to a tree in step. -/
theorem inStep_foldl_merge {base : Node} {layers : List Node} (hb : base.WellFormed)
    (hsb : base.InStep) (h : ∀ layer ∈ layers, layer.WellFormed ∧ layer.InStep) :
    (layers.foldl merge base).InStep := by
  induction layers generalizing base with
  | nil => exact hsb
  | cons layer rest ih =>
      obtain ⟨⟨hl, hsl⟩, hrest⟩ := List.forall_mem_cons.1 h
      exact ih (hb.merge hl) (InStep.merge hb hl hsb hsl) hrest

end Node

namespace Evaluator

variable {ι : Type} {setting : Setting ι} {ev : Evaluator ι} {sources : List Source}

/-- The tree of a value that no extension applies to. -/
def wrapped (ev : Evaluator ι) (found : Json × Source) : Node :=
  (Node.literal found.2 .empty found.1).withMetadata ev.metadata

theorem wellFormed_wrapped {found : Json × Source} (h : found.1.Distinct) :
    (ev.wrapped found).WellFormed :=
  Node.wellFormed_withMetadata.2 (Node.wellFormed_literal _ _ h)

theorem inStep_wrapped (found : Json × Source) : (ev.wrapped found).InStep :=
  Node.inStep_withMetadata.2 (Node.inStep_literal _ _ _)

theorem toJson_wrapped (found : Json × Source) : (ev.wrapped found).toJson = found.1 := by
  rw [wrapped, Node.toJson_withMetadata, Node.toJson_literal]

/-- The fold of wrapped values holds the values laid over one another, and so does its root. -/
theorem toJson_foldl_wrapped {first : Json × Source} {others : List (Json × Source)}
    (hfirst : first.1.Distinct) (hothers : ∀ found ∈ others, found.1.Distinct) :
    ((others.map ev.wrapped).foldl Node.merge (ev.wrapped first)).toJson =
        first.1.overlayAll (others.map Prod.fst) ∧
      ((others.map ev.wrapped).foldl Node.merge (ev.wrapped first)).raw =
        first.1.overlayAll (others.map Prod.fst) := by
  have hwell : ∀ layer ∈ others.map ev.wrapped, layer.WellFormed :=
    List.forall_mem_map.2 fun found hfound => wellFormed_wrapped (hothers found hfound)
  have hstep : ∀ layer ∈ others.map ev.wrapped, layer.WellFormed ∧ layer.InStep :=
    List.forall_mem_map.2 fun found hfound =>
      ⟨wellFormed_wrapped (hothers found hfound), inStep_wrapped found⟩
  have hvalue : ((others.map ev.wrapped).foldl Node.merge (ev.wrapped first)).toJson =
      first.1.overlayAll (others.map Prod.fst) := by
    rw [Node.toJson_foldl_merge (wellFormed_wrapped hfirst) hwell, toJson_wrapped, List.map_map]
    exact congrArg _ (List.map_congr_left fun found _ => toJson_wrapped found)
  have hfold : ((others.map ev.wrapped).foldl Node.merge (ev.wrapped first)).InStep :=
    Node.inStep_foldl_merge (wellFormed_wrapped hfirst) (inStep_wrapped first) hstep
  exact ⟨hvalue, hfold.root.trans hvalue⟩

/-- What makes both ways of stacking meet: the source gives values that write no key twice and nest
less deep than the evaluator goes, and it does not report itself missing. -/
structure Stackable (setting : Setting ι) (source : Source) : Prop where
  proper : source.Proper setting.host
  present : ∀ e, (source.read setting.host).result = .error e → e.isNotFound = false
  shallow : ∀ raw origin, (source.read setting.host).result = .ok (raw, origin) →
    raw.depth < setting.limit

theorem stackable_of_read {source : Source} {found : Json × Source}
    (hproper : source.Proper setting.host) (hread : (source.read setting.host).result = .ok found)
    (hdepth : found.1.depth < setting.limit) : Stackable setting source where
  proper := hproper
  present e he := by
    rw [hread] at he
    cases he
  shallow raw origin h := by
    rw [hread] at h
    cases h
    exact hdepth

variable [DecidableEq ι]

/-- Without extensions, a source that can be read loads as its wrapped value. -/
theorem result_load_of_no_extension (hev : ev.extensions = []) {source : Source}
    {found : Json × Source} (hread : (source.read setting.host).result = .ok found)
    (hvalue : found.1.Distinct) (hlimit : found.1.depth < setting.limit) :
    (ev.load setting source).result = .ok (ev.wrapped found) := by
  obtain ⟨raw, origin⟩ := found
  have hidle : Idle setting.catalogue (ev.rootFrame raw origin).extensions
      (ev.rootFrame raw origin).context (ev.rootFrame raw origin).positions raw := by
    change Idle setting.catalogue ev.extensions _ _ _
    rw [hev]
    exact nofun
  rw [ev.result_load_of_read setting hread]
  exact congrArg Run.result (evaluateNode_of_idle hvalue hidle hlimit)

/-- The first failure of reading is the first failure of loading. -/
theorem findSome?_fatal?_of_unread (hev : ev.extensions = [])
    (hsources : ∀ s ∈ sources, Stackable setting s) {e : ConfigError}
    (h : Source.readAll setting.host sources = .error e) :
    sources.findSome? (ev.fatal? setting) = some (.failed e) := by
  induction sources with
  | nil => cases h
  | cons s rest ih =>
      obtain ⟨hs, hrest⟩ := List.forall_mem_cons.1 hsources
      rw [Source.readAll_cons] at h
      rw [List.findSome?_cons]
      cases hread : (s.read setting.host).result with
      | error other =>
          rw [hread] at h
          cases h
          have hfatal : ev.fatal? setting s = some (.failed e) := by
            simp [fatal?, ev.result_load_of_unread setting hread, hs.present e hread]
          rw [hfatal]
      | ok found =>
          rw [hread] at h
          have hload := result_load_of_no_extension hev hread (hs.proper.distinct_read hread)
            (hs.shallow _ _ hread)
          have hfatal : ev.fatal? setting s = none := by rw [fatal?, hload]
          rw [hfatal]
          refine ih hrest ?_
          cases hall : Source.readAll setting.host rest with
          | ok others => simp [hall, Except.bind, Except.map] at h
          | error other => simpa [hall, Except.bind, Except.map] using h

/-- Sources that can all be read all load, each as its wrapped value. -/
theorem filterMap_loaded?_of_read (hev : ev.extensions = [])
    (hsources : ∀ s ∈ sources, Stackable setting s) {found : List (Json × Source)}
    (h : Source.readAll setting.host sources = .ok found) :
    sources.findSome? (ev.fatal? setting) = none ∧
      sources.filterMap (ev.loaded? setting) = found.map ev.wrapped := by
  induction sources generalizing found with
  | nil =>
      cases h
      exact ⟨rfl, rfl⟩
  | cons s rest ih =>
      obtain ⟨hs, hrest⟩ := List.forall_mem_cons.1 hsources
      rw [Source.readAll_cons] at h
      obtain ⟨first, hfirst, h⟩ := ok_of_bind h
      obtain ⟨others, hothers, rfl⟩ := ok_of_map h
      obtain ⟨hfatal, hloaded⟩ := ih hrest hothers
      have hload := result_load_of_no_extension hev hfirst (hs.proper.distinct_read hfirst)
        (hs.shallow _ _ hfirst)
      have hfirstFatal : ev.fatal? setting s = none := by rw [fatal?, hload]
      have hfirstLoaded : ev.loaded? setting s = some (ev.wrapped first) := by
        rw [loaded?, hload]
        rfl
      rw [List.findSome?_cons, hfirstFatal, List.filterMap_cons, hfirstLoaded, List.map_cons]
      exact ⟨hfatal, congrArg _ hloaded⟩

/-- Without extensions, loading sources as layers and loading their combination succeed together,
with the same value, or fail together, with the same failure. -/
theorem stacked_agree (hev : ev.extensions = []) (hne : sources ≠ [])
    (hsources : ∀ s ∈ sources, Stackable setting s) (id : Nat) :
    (∃ tree again, (ev.loadLayers setting sources).result = .ok tree ∧
      (ev.load setting (.combined id sources)).result = .ok again ∧
        tree.toJson = again.toJson ∧ tree.raw = again.raw) ∨
    ∃ e, (ev.loadLayers setting sources).result = .error (.failed e) ∧
      (ev.load setting (.combined id sources)).result = .error (.failed e) := by
  obtain ⟨s, rest, rfl⟩ := List.exists_cons_of_ne_nil hne
  have hcombined := @Source.result_read_combined setting.host id s rest
  cases hall : Source.readAll setting.host (s :: rest) with
  | error e =>
      rw [hall] at hcombined
      refine .inr ⟨e, ?_, ev.result_load_of_unread setting hcombined⟩
      rw [result_loadLayers, findSome?_fatal?_of_unread hev hsources hall]
  | ok found =>
      rw [hall] at hcombined
      obtain ⟨hfatal, hloaded⟩ := filterMap_loaded?_of_read hev hsources hall
      have hfound : ∀ entry ∈ found, entry.1.Distinct ∧ entry.1.depth < setting.limit := by
        intro entry hentry
        obtain ⟨t, ht, hread⟩ := Source.mem_readAll hall hentry
        exact ⟨(hsources t ht).proper.distinct_read hread, (hsources t ht).shallow _ _ hread⟩
      rw [Source.readAll_cons] at hall
      obtain ⟨first, -, hall⟩ := ok_of_bind hall
      obtain ⟨others, -, rfl⟩ := ok_of_map hall
      obtain ⟨⟨hfirst, hdepth⟩, hothers⟩ := List.forall_mem_cons.1 hfound
      have hlayers : ∀ layer ∈ others.map Prod.fst, layer.Distinct ∧ layer.depth < setting.limit :=
        List.forall_mem_map.2 hothers
      -- What is overlaid first nests no deeper than its parts, so it can be evaluated as well.
      have hagain := result_load_of_no_extension hev hcombined
        (hfirst.overlayAll fun layer hlayer => (hlayers layer hlayer).1)
        (Json.depth_overlayAll_lt hfirst hdepth hlayers)
      obtain ⟨hvalue, hraw⟩ := toJson_foldl_wrapped hfirst
        fun entry hentry => (hothers entry hentry).1
      refine .inl ⟨(others.map ev.wrapped).foldl Node.merge (ev.wrapped first), _, ?_, hagain, ?_,
        ?_⟩
      · rw [result_loadLayers, hfatal, hloaded]
        rfl
      · rw [hvalue, toJson_wrapped]
        rfl
      · rw [hraw, wrapped, Node.raw_withMetadata, Node.raw_literal]
        rfl

/-- A source at the bottom of the stack. -/
def baseSource : Source :=
  .literal 0 (.object [("db", .object [("port", .ofInt 1), ("user", .null)]), ("k", .ofInt 0)])

/-- A fallback that finds a combination behind a variable that is not set. -/
def nestedSource : Source :=
  .fallback 1 [.variable 2 "SITE" .json,
    .combined 3 [.literal 4 (.object [("db", .ofInt 1)]),
      .literal 5 (.object [("a", .null), ("db", .object [("port", .ofInt 2)])])]]

/-- A source that is there and cannot be understood. -/
def failingSource : Source :=
  .custom 6 "broken" fun _ => .error (.parse "broken" .json)

theorem stacked_agree_nested :
    (∃ tree again,
      ((Evaluator.mk [] .empty .empty).loadLayers bareSetting [baseSource, nestedSource]).result =
        .ok tree ∧
      ((Evaluator.mk [] .empty .empty).load bareSetting
        (.combined 7 [baseSource, nestedSource])).result = .ok again ∧
      tree.toJson = .object [("db", .object [("port", .ofInt 2), ("user", .null)]),
        ("k", .ofInt 0), ("a", .null)] ∧ again.toJson = tree.toJson ∧ again.raw = tree.raw) ∧
    ((Evaluator.mk [] .empty .empty).loadLayers bareSetting
      [baseSource, failingSource, nestedSource]).result =
        .error (.failed (.parse "broken" .json)) ∧
    ((Evaluator.mk [] .empty .empty).load bareSetting
      (.combined 7 [baseSource, failingSource, nestedSource])).result =
        .error (.failed (.parse "broken" .json)) := by
  have hbase : Stackable bareSetting baseSource :=
    stackable_of_read (.literal (by decide)) rfl (by decide)
  have hnested : Stackable bareSetting nestedSource := by
    have hcombined : (Source.combined 3 [.literal 4 (.object [("db", .ofInt 1)]),
        .literal 5 (.object [("a", .null), ("db", .object [("port", .ofInt 2)])])]).Proper
          bareSetting.host :=
      .combined (List.forall_mem_cons.2
        ⟨.literal (by decide), List.forall_mem_singleton.2 (.literal (by decide))⟩)
    exact stackable_of_read (.fallback (List.forall_mem_cons.2
      ⟨.variable, List.forall_mem_singleton.2 hcombined⟩)) rfl (by decide)
  have hfailing : Stackable bareSetting failingSource := {
    proper := .custom fun v hv => by cases hv
    present := fun e he => by cases he; rfl
    shallow := fun raw origin h => by cases h }
  constructor
  · obtain ⟨tree, again, htree, hagain, hvalue, hraw⟩ | ⟨e, he, -⟩ :=
      @stacked_agree Unit bareSetting ⟨[], .empty, .empty⟩ [baseSource, nestedSource] _ rfl
        (by simp) (by simp [hbase, hnested]) 7
    · refine ⟨tree, again, htree, hagain, ?_, hvalue.symm, hraw.symm⟩
      cases htree
      decide
    · cases he
  · obtain ⟨tree, again, htree, -⟩ | ⟨e, he, hagain⟩ :=
      @stacked_agree Unit bareSetting ⟨[], .empty, .empty⟩
        [baseSource, failingSource, nestedSource] _ rfl (by simp)
        (by simp [hbase, hnested, hfailing]) 7
    · cases htree
    · cases he
      exact ⟨rfl, hagain⟩

end Evaluator

end LayeredConfig
