import LayeredConfig.Proofs.Loading.Stacking

/-!
# Origins of values

Reading a source tells which source the value is attributed to. A fallback hands on what the first
of its members settles, a value with the origin that the member names or a failure other than a
missing source, and settles nothing when they all are missing (`Source.settled?_fallback`). So what
a fallback settles is told by its list, a fallback inside it counts as its own members
(`Source.settled?_flattened`), and the origin of a value is never a fallback
(`Source.offers_of_read`). A layer that is loaded from the source carries its origin at every node.
-/

namespace LayeredConfig

namespace Source

/-- Induction over a source: a fallback may use the statement for its members. -/
@[elab_as_elim]
theorem induct {motive : Source → Prop}
    (fallback : ∀ id members, (∀ s ∈ members, motive s) → motive (.fallback id members))
    (other : ∀ s : Source, s.kind ≠ .fallback → motive s) (s : Source) : motive s :=
  Source.rec (motive_1 := motive) (motive_2 := fun members => ∀ s ∈ members, motive s)
    (fun _ _ => other _ nofun) (fun _ _ => other _ nofun) (fun _ _ _ => other _ nofun)
    (fun _ _ _ => other _ nofun) fallback (fun _ _ _ => other _ nofun)
    (fun _ _ _ => other _ nofun) nofun
    (fun _ _ head tail => List.forall_mem_cons.2 ⟨head, tail⟩) s

variable {host : Host}

/-! ### What settles a fallback -/

variable (host) in
/-- What a fallback that gets to the source comes to, if it does not go on past it. -/
def settled? (s : Source) : Option (Except ConfigError (Json × Source)) :=
  match (read host s).result with
  | .ok found => some (.ok found)
  | .error e => if e.isNotFound then none else some (.error e)

theorem settled?_eq_some_iff {s : Source} {outcome : Except ConfigError (Json × Source)} :
    settled? host s = some outcome ↔
      (read host s).result = outcome ∧ ∀ e, outcome = .error e → e.isNotFound = false := by
  unfold settled?
  cases (read host s).result with
  | ok found =>
      constructor
      · rintro ⟨⟩
        exact ⟨rfl, nofun⟩
      · rintro ⟨rfl, -⟩
        rfl
  | error e =>
      cases he : e.isNotFound with
      | true =>
          refine iff_of_false (by simp [he]) ?_
          rintro ⟨rfl, h⟩
          exact Bool.noConfusion (he.symm.trans (h e rfl))
      | false =>
          simp only [he, Bool.false_eq_true, if_false, Option.some.injEq]
          refine ⟨fun h => ⟨h, fun other hother => ?_⟩, And.left⟩
          cases h.trans hother
          exact he

theorem settled?_eq_none_iff {s : Source} :
    settled? host s = none ↔ ∃ e, (read host s).result = .error e ∧ e.isNotFound = true := by
  unfold settled?
  cases (read host s).result with
  | ok found => exact iff_of_false nofun nofun
  | error e => cases he : e.isNotFound <;> simp [he]

theorem result_firstRead (origin : String) (members : List Source) :
    (firstRead host origin members).result =
      (members.findSome? (settled? host)).getD
        (.error (.notFound origin "no source in the chain produced a value")) := by
  induction members with
  | nil => rfl
  | cons s rest ih =>
      rw [firstRead, Logged.result_orElseMissing, List.findSome?_cons, settled?, ih]
      cases (read host s).result with
      | ok found => rfl
      | error e => cases he : e.isNotFound <;> simp [he]

/-- A fallback settles what the first of its members settles. -/
theorem settled?_fallback (id : Nat) (members : List Source) :
    settled? host (.fallback id members) = members.findSome? (settled? host) := by
  have hread := @result_firstRead host (describe (.fallback id members)) members
  cases hfirst : members.findSome? (settled? host) with
  | none =>
      rw [hfirst] at hread
      exact settled?_eq_none_iff.2 ⟨_, hread, rfl⟩
  | some outcome =>
      rw [hfirst] at hread
      obtain ⟨s, -, hs⟩ := List.exists_of_findSome?_eq_some hfirst
      exact settled?_eq_some_iff.2 ⟨hread, (settled?_eq_some_iff.1 hs).2⟩

/-- A fallback in the list of another one counts as its own members. -/
theorem settled?_flattened (id id' inner : Nat) (before members after : List Source) :
    settled? host (.fallback id (before ++ .fallback inner members :: after)) =
      settled? host (.fallback id' (before ++ members ++ after)) := by
  simp only [settled?_fallback, List.findSome?_append, List.findSome?_cons, Option.or_assoc]
  cases members.findSome? (settled? host) <;> rfl

/-! ### Outcomes of reading -/

/-- Both come to one value or to one failure, or both say that something is missing. -/
inductive Agree {α : Type} : Except ConfigError α → Except ConfigError α → Prop
  | found (a : α) : Agree (.ok a) (.ok a)
  | failed {e : ConfigError} : e.isNotFound = false → Agree (.error e) (.error e)
  | missing {e e' : ConfigError} :
      e.isNotFound = true → e'.isNotFound = true → Agree (.error e) (.error e')

theorem agree_of_settled?_eq {s t : Source} (h : settled? host s = settled? host t) :
    Agree (read host s).result (read host t).result := by
  cases hs : settled? host s with
  | none =>
      obtain ⟨e, hread, he⟩ := settled?_eq_none_iff.1 hs
      obtain ⟨e', hread', he'⟩ := settled?_eq_none_iff.1 (h.symm.trans hs)
      rw [hread, hread']
      exact .missing he he'
  | some outcome =>
      obtain ⟨hread, hfailure⟩ := settled?_eq_some_iff.1 hs
      obtain ⟨hread', -⟩ := settled?_eq_some_iff.1 (h.symm.trans hs)
      rw [hread, hread']
      cases outcome with
      | ok found => exact .found found
      | error e => exact .failed (hfailure e rfl)

/-! ### The source that a value is attributed to -/

/-- The source itself, or a source that a member of the fallback offers. -/
inductive Offers : Source → Source → Prop
  | itself (s : Source) : Offers s s
  | member {id : Nat} {members : List Source} {s origin : Source} :
      s ∈ members → Offers s origin → Offers (.fallback id members) origin

/-- A source that is no fallback is the origin of its value. -/
theorem result_read_of_not_fallback {s : Source} (h : s.kind ≠ .fallback) :
    (read host s).result = (readValue host s).result.map fun v => (v, s) := by
  have hread : read host s = readValue host s >>= fun v => pure (v, s) := by
    cases s with
    | «fallback» id members => exact absurd rfl h
    | _ => rfl
  rw [hread, Logged.result_bind]
  cases (readValue host s).result <;> rfl

/-- The origin of a value stands in the lists of fallbacks that lead to it, is no fallback itself
and has the value. -/
theorem offers_of_read {s origin : Source} {v : Json} (h : (read host s).result = .ok (v, origin)) :
    s.Offers origin ∧ origin.kind ≠ .fallback ∧ (readValue host origin).result = .ok v := by
  induction s using Source.induct with
  | fallback id members ih =>
      have hsettled : settled? host (.fallback id members) = some (.ok (v, origin)) :=
        settled?_eq_some_iff.2 ⟨h, nofun⟩
      rw [settled?_fallback] at hsettled
      obtain ⟨s, hs, hmember⟩ := List.exists_of_findSome?_eq_some hsettled
      obtain ⟨hoffers, hvalue⟩ := ih s hs (settled?_eq_some_iff.1 hmember).1
      exact ⟨.member hs hoffers, hvalue⟩
  | other t hkind =>
      rw [result_read_of_not_fallback hkind] at h
      obtain ⟨w, hw, heq⟩ := ok_of_map h
      obtain ⟨rfl, rfl⟩ := Prod.mk.inj heq
      exact ⟨.itself _, hkind, hw⟩

end Source

namespace Evaluator

theorem everywhere_sources_wrapped {ι : Type} (ev : Evaluator ι) (found : Json × Source) :
    (ev.wrapped found).Everywhere fun n => n.sources = [found.2] := by
  have hliteral := Node.everywhere_sources_literal found.2 .empty found.1
  rw [Node.everywhere_iff] at hliteral ⊢
  rwa [wrapped, Node.sources_withMetadata, Node.children_withMetadata]

end Evaluator

namespace Source

/-- Reading a source and reading its value come to the same but for the origin. The origin stands in
the fallbacks that the source is made of and is no fallback; it has the value by itself, and without
extensions every node of a layer that is loaded from the source is attributed to it alone. A
fallback in the list of another one can be replaced by its members. -/
theorem read_reports_origin {ι : Type} [DecidableEq ι] (setting : Setting ι) (s : Source) :
    (readValue setting.host s).result = (read setting.host s).result.map Prod.fst ∧
    (∀ v origin, (read setting.host s).result = .ok (v, origin) →
      s.Offers origin ∧ origin.kind ≠ .fallback ∧ (readValue setting.host origin).result = .ok v ∧
      (s.Proper setting.host → v.depth < setting.limit → ∀ ev : Evaluator ι, ev.extensions = [] →
        ∃ tree, (ev.load setting s).result = .ok tree ∧
          tree.Everywhere fun n => n.sources = [origin])) ∧
    ∀ id id' inner before members after,
      Agree (read setting.host (.fallback id (before ++ .fallback inner members :: after))).result
        (read setting.host (.fallback id' (before ++ members ++ after))).result := by
  refine ⟨result_readValue setting.host s, fun v origin hread => ?_,
    fun id id' inner before members after => ?_⟩
  · obtain ⟨hoffers, hkind, hvalue⟩ := offers_of_read hread
    refine ⟨hoffers, hkind, hvalue, fun hproper hdepth ev hev => ?_⟩
    have hload :=
      Evaluator.result_load_of_no_extension hev hread (hproper.distinct_read hread) hdepth
    exact ⟨_, hload, ev.everywhere_sources_wrapped (v, origin)⟩
  · exact agree_of_settled?_eq (settled?_flattened id id' inner before members after)

/-- Two fallbacks around a combination, with an unset variable in front of it in either of them. -/
def stackedSource : Source :=
  .fallback 8 [.variable 9 "PORT" .raw, Evaluator.nestedSource, Evaluator.failingSource]

theorem read_reports_origin_stackedSource :
    (∃ origin tree, (read Evaluator.bareHost stackedSource).result =
        .ok (.object [("db", .object [("port", .ofInt 2)]), ("a", .null)], origin) ∧
      origin.kind = .combined ∧ stackedSource.Offers origin ∧
      ((Evaluator.mk [] .empty .empty).load Evaluator.bareSetting stackedSource).result = .ok tree ∧
      tree.nodes.length = 4 ∧ tree.Everywhere fun n => n.sources = [origin]) ∧
    Agree (read Evaluator.bareHost
      (.fallback 8 [.fallback 9 [Evaluator.failingSource], Evaluator.nestedSource])).result
        (.error (.parse "broken" .json)) := by
  obtain ⟨-, horigin, hflat⟩ := read_reports_origin Evaluator.bareSetting stackedSource
  have hproper : stackedSource.Proper Evaluator.bareHost := by
    have hcombined : ∀ s ∈ [Source.literal 4 (.object [("db", .ofInt 1)]),
        .literal 5 (.object [("a", .null), ("db", .object [("port", .ofInt 2)])])],
          s.Proper Evaluator.bareHost :=
      List.forall_mem_cons.2
        ⟨.literal (by decide), List.forall_mem_singleton.2 (.literal (by decide))⟩
    have hnested : Evaluator.nestedSource.Proper Evaluator.bareHost :=
      .fallback (List.forall_mem_cons.2
        ⟨.variable, List.forall_mem_singleton.2 (.combined hcombined)⟩)
    have hfailing : Evaluator.failingSource.Proper Evaluator.bareHost := .custom nofun
    exact .fallback (List.forall_mem_cons.2
      ⟨.variable, List.forall_mem_cons.2 ⟨hnested, List.forall_mem_singleton.2 hfailing⟩⟩)
  constructor
  · obtain ⟨hoffers, -, -, hload⟩ := horigin _ _ rfl
    obtain ⟨tree, htree, hsources⟩ := hload hproper (by decide) ⟨[], .empty, .empty⟩ rfl
    refine ⟨_, tree, rfl, rfl, hoffers, htree, ?_, hsources⟩
    cases htree
    decide
  · exact hflat 8 8 9 [] [Evaluator.failingSource] [Evaluator.nestedSource]

end Source

end LayeredConfig
