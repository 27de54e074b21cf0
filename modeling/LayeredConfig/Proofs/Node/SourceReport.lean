import Mathlib.Data.List.Induction
import LayeredConfig.Proofs.Merge.Values
import LayeredConfig.Proofs.Node.Preorder

/-!
# Which sources a tree reports

`allSources` lists the sources of all nodes of a tree, each once, in the order in which the
traversal meets them (`pairwise_allSources`). A tree draws on a source when one of its nodes has it.
Laying a tree over another keeps all that the upper tree draws on, for what is replaced lies in the
lower tree (`DrawsOn.merge`), and neither merging nor filtering brings a new source in
(`drawsOn_of_merge`, `drawsOn_of_pruned`). Reports follow what trees draw on, up to handles of one
source.
-/

namespace LayeredConfig

namespace Members

variable {α : Type}

/-- Removing a key removes no entry but the one that the key looks up. -/
theorem eq_or_mem_erase {key : String} {v : α} {ms : Members α} {entry : String × α}
    (hget : get? key ms = some v) (h : entry ∈ ms) : entry = (key, v) ∨ entry ∈ erase key ms := by
  induction ms with
  | nil => cases h
  | cons first rest ih =>
      obtain ⟨k, w⟩ := first
      by_cases hk : k = key
      · subst hk
        obtain rfl : w = v := by simpa [get?_cons] using hget
        rw [erase, if_pos rfl]
        exact List.mem_cons.1 h
      · rw [get?_cons, if_neg hk] at hget
        rw [erase, if_neg hk]
        rcases List.mem_cons.1 h with rfl | h
        · exact .inr List.mem_cons_self
        · exact (ih hget h).imp_right (List.mem_cons_of_mem _)

end Members

namespace Node

/-- Some node of the tree has the source. -/
def DrawsOn (n : Node) (s : Source) : Prop := ∃ m ∈ n.nodes, s ∈ m.sources

/-- The report of the tree names the source. -/
def Reports (n : Node) (s : Source) : Prop := ∃ t ∈ n.allSources, t.sameAs s = true

/-- How many sources are met before the first handle of a source: nodes in the order of the
traversal, and the sources of one node in theirs. -/
def firstMet (n : Node) (s : Source) : Nat :=
  (n.entries.flatMap fun entry => entry.2.sources).findIdx (·.sameAs s)

variable {n m : Node} {s : Source} {met : List Source}

/-! ### Sources, each once -/

theorem foldl_addSource_append_singleton (met : List Source) (last : Source) :
    (met ++ [last]).foldl addSource [] =
      if (met.foldl addSource []).any (·.sameAs last) then met.foldl addSource []
      else met.foldl addSource [] ++ [last] := by
  rw [List.foldl_append]
  rfl

theorem mem_of_mem_foldl_addSource (h : s ∈ met.foldl addSource []) : s ∈ met := by
  induction met using List.reverseRecOn with
  | nil => cases h
  | append_singleton met last ih =>
      rw [foldl_addSource_append_singleton] at h
      split at h
      · exact List.mem_append_left [last] (ih h)
      · rcases List.mem_append.1 h with h | h
        · exact List.mem_append_left [last] (ih h)
        · exact List.mem_append_right met h

theorem exists_mem_foldl_addSource (h : s ∈ met) :
    ∃ t ∈ met.foldl addSource [], t.sameAs s = true := by
  induction met using List.reverseRecOn with
  | nil => cases h
  | append_singleton met last ih =>
      rw [foldl_addSource_append_singleton]
      rcases List.mem_append.1 h with h | h
      · obtain ⟨t, ht, hsame⟩ := ih h
        split
        · exact ⟨t, ht, hsame⟩
        · exact ⟨t, List.mem_append_left [last] ht, hsame⟩
      · obtain rfl := List.mem_singleton.1 h
        split
        · next hseen => simpa using hseen
        · exact ⟨s, List.mem_append_right _ h, s.sameAs_refl⟩

/-- Sources that were met before add nothing. -/
theorem foldl_addSource_append_of_subset {later : List Source} (h : ∀ s ∈ later, s ∈ met) :
    (met ++ later).foldl addSource [] = met.foldl addSource [] := by
  induction later using List.reverseRecOn with
  | nil => rw [List.append_nil]
  | append_singleton later last ih =>
      obtain ⟨hlater, hlast⟩ := List.forall_mem_append.1 h
      have hmem := List.mem_append_left later (hlast last List.mem_cons_self)
      rw [← List.append_assoc, foldl_addSource_append_singleton,
        if_pos (List.any_eq_true.2 (exists_mem_foldl_addSource hmem)), ih hlater]

/-- What is met later does not change where a source was met first. -/
theorem findIdx_append_of_mem (h : s ∈ met) (later : List Source) :
    (met ++ later).findIdx (·.sameAs s) = met.findIdx (·.sameAs s) := by
  have hlt : met.findIdx (·.sameAs s) < met.length :=
    List.findIdx_lt_length_of_exists ⟨s, h, s.sameAs_refl⟩
  rw [List.findIdx_append, if_pos hlt]

/-- Sources are listed as they are met first. -/
theorem pairwise_findIdx_foldl_addSource (met : List Source) :
    (met.foldl addSource []).Pairwise fun s t =>
      met.findIdx (·.sameAs s) < met.findIdx (·.sameAs t) := by
  induction met using List.reverseRecOn with
  | nil => exact .nil
  | append_singleton met last ih =>
      have hbefore : (met.foldl addSource []).Pairwise fun s t =>
          (met ++ [last]).findIdx (·.sameAs s) < (met ++ [last]).findIdx (·.sameAs t) := by
        refine ih.imp_of_mem fun hs ht hlt => ?_
        rwa [findIdx_append_of_mem (mem_of_mem_foldl_addSource hs),
          findIdx_append_of_mem (mem_of_mem_foldl_addSource ht)]
      rw [foldl_addSource_append_singleton]
      split
      · exact hbefore
      · next hnew =>
          refine List.pairwise_append.2 ⟨hbefore, List.pairwise_singleton _ _, fun s hs t ht => ?_⟩
          obtain rfl := List.mem_singleton.1 ht
          have hmet := mem_of_mem_foldl_addSource hs
          have hunmet : ¬ met.findIdx (·.sameAs t) < met.length := by
            intro hlt
            obtain ⟨u, hu, hsame⟩ := List.findIdx_lt_length.1 hlt
            obtain ⟨v, hv, hsame'⟩ := exists_mem_foldl_addSource hu
            refine hnew (List.any_eq_true.2 ⟨v, hv, ?_⟩)
            exact Source.sameAs_iff.2
              ((Source.sameAs_iff.1 hsame').trans (Source.sameAs_iff.1 hsame))
          rw [findIdx_append_of_mem hmet, List.findIdx_append, if_neg hunmet]
          have hlt : met.findIdx (·.sameAs s) < met.length :=
            List.findIdx_lt_length_of_exists ⟨s, hmet, s.sameAs_refl⟩
          omega

theorem pairwise_allSources (n : Node) :
    n.allSources.Pairwise fun s t => s.sameAs t = false ∧ n.firstMet s < n.firstMet t := by
  have hmet : n.nodes.flatMap sources = n.entries.flatMap fun entry => entry.2.sources :=
    List.flatMap_map ..
  rw [allSources, hmet]
  refine (pairwise_findIdx_foldl_addSource _).imp fun {s t} hlt => ⟨?_, hlt⟩
  -- Handles of one source are met first in the same place.
  rw [Bool.eq_false_iff]
  intro hsame
  have hmatch : (fun u : Source => u.sameAs s) = fun u => u.sameAs t := by
    funext u
    rw [Source.sameAs, Source.sameAs_iff.1 hsame, Source.sameAs]
  rw [hmatch] at hlt
  exact Nat.lt_irrefl _ hlt

/-! ### What a tree draws on -/

theorem nodes_eq_cons (n : Node) : n.nodes = n :: n.children.flatMap nodes := by
  cases n with
  | leaf label value => simp [children]
  | array label items => simp [children]
  | object label members => simp [children, List.flatMap_map]

theorem drawsOn_iff : n.DrawsOn s ↔ s ∈ n.sources ∨ ∃ child ∈ n.children, child.DrawsOn s := by
  simp only [DrawsOn, nodes_eq_cons n, List.exists_mem_cons_iff, List.mem_flatMap]
  refine or_congr_right ⟨?_, ?_⟩
  · rintro ⟨m, ⟨child, hchild, hm⟩, hs⟩
    exact ⟨child, hchild, m, hm, hs⟩
  · rintro ⟨child, hchild, m, hm, hs⟩
    exact ⟨m, ⟨child, hchild, hm⟩, hs⟩

theorem DrawsOn.reports (h : n.DrawsOn s) : n.Reports s := by
  obtain ⟨m, hm, hs⟩ := h
  exact exists_mem_foldl_addSource (List.mem_flatMap.2 ⟨m, hm, hs⟩)

theorem drawsOn_of_mem_allSources (h : s ∈ n.allSources) : n.DrawsOn s :=
  List.mem_flatMap.1 (mem_of_mem_foldl_addSource h)

theorem drawsOn_withMetadata {metadata : Metadata} :
    (n.withMetadata metadata).DrawsOn s ↔ n.DrawsOn s := by
  rw [drawsOn_iff, drawsOn_iff (n := n), children_withMetadata, sources_withMetadata]

/-! ### Merged and filtered trees -/

/-- A member of the upper tree is in the merged one, as it is or over a member of the lower tree. -/
theorem exists_mem_mergeMembers {members others : List (String × Node)} {entry : String × Node}
    (h : entry ∈ others) :
    entry ∈ mergeMembers members others ∨
      ∃ held, (entry.1, held) ∈ members ∧
        (entry.1, merge held entry.2) ∈ mergeMembers members others := by
  induction members generalizing others with
  | nil => exact .inl (by rwa [mergeMembers])
  | cons first rest ih =>
      obtain ⟨key, child⟩ := first
      rw [mergeMembers]
      cases hget : Members.get? key others with
      | none =>
          rcases ih h with h | ⟨held, hheld, h⟩
          · exact .inl (List.mem_cons_of_mem _ h)
          · exact .inr ⟨held, List.mem_cons_of_mem _ hheld, List.mem_cons_of_mem _ h⟩
      | some other =>
          rcases Members.eq_or_mem_erase hget h with rfl | h
          · exact .inr ⟨child, List.mem_cons_self, List.mem_cons_self⟩
          · rcases ih h with h | ⟨held, hheld, h⟩
            · exact .inl (List.mem_cons_of_mem _ h)
            · exact .inr ⟨held, List.mem_cons_of_mem _ hheld, List.mem_cons_of_mem _ h⟩

theorem drawsOn_object {label : Label} {members : List (String × Node)} :
    (object label members).DrawsOn s ↔
      s ∈ label.sources ∨ ∃ entry ∈ members, entry.2.DrawsOn s := by
  rw [drawsOn_iff]
  simp only [children, List.mem_map, exists_exists_and_eq_and]
  rfl

theorem drawsOn_merge_of_not_object {lower upper : Node}
    (h : (lower.isObject && upper.isObject) = false) :
    (merge lower upper).DrawsOn s ↔ upper.DrawsOn s := by
  rw [merge_of_not_object h, drawsOn_withMetadata]

/-- Laying a tree over another keeps what it draws on. -/
theorem DrawsOn.merge {lower upper : Node} (h : upper.DrawsOn s) :
    (Node.merge lower upper).DrawsOn s := by
  induction lower using Node.induct generalizing upper with
  | leaf label value => exact (drawsOn_merge_of_not_object rfl).2 h
  | array label items ih => exact (drawsOn_merge_of_not_object rfl).2 h
  | object label members ih =>
      cases hobj : (object label members).isObject && upper.isObject with
      | false => exact (drawsOn_merge_of_not_object hobj).2 h
      | true =>
          obtain ⟨_, _, label', others, heq, rfl⟩ := exists_objects hobj
          cases heq
          rw [merge_object, drawsOn_object]
          rcases drawsOn_object.1 h with h | ⟨entry, hentry, h⟩
          · exact .inl (List.mem_append_right _ h)
          · rcases exists_mem_mergeMembers hentry with hmem | ⟨held, hheld, hmem⟩
            · exact .inr ⟨entry, hmem, h⟩
            · exact .inr ⟨_, hmem, ih _ hheld h⟩

/-- Merging brings no new source in. -/
theorem drawsOn_of_merge {lower upper : Node} (h : (merge lower upper).DrawsOn s) :
    lower.DrawsOn s ∨ upper.DrawsOn s := by
  obtain ⟨m, hm, hs⟩ := h
  have hall : (merge lower upper).Everywhere fun m =>
      ∀ s ∈ m.sources, lower.DrawsOn s ∨ upper.DrawsOn s := by
    refine Everywhere.merge (fun a b ha hb => ?_) (fun m hm s hs => .inl ⟨m, hm, hs⟩)
      (fun m hm s hs => .inr ⟨m, hm, hs⟩)
    cases hobj : a.isObject && b.isObject with
    | false => rwa [merge_of_not_object hobj, sources_withMetadata]
    | true =>
        obtain ⟨label, members, label', others, rfl, rfl⟩ := exists_objects hobj
        rw [merge_object]
        exact List.forall_mem_append.2 ⟨ha, hb⟩
  exact hall m hm s hs

/-- Nor does filtering. -/
theorem drawsOn_of_pruned {keep : Node → Bool} (h : (n.pruned keep).DrawsOn s) : n.DrawsOn s := by
  induction n using induct_children with
  | step n ih =>
      have hsources : (n.pruned keep).sources = n.sources :=
        congrArg Content.sources (content_pruned n)
      rw [drawsOn_iff, hsources, children_pruned] at h
      rcases h with h | ⟨_, hkept, h⟩
      · exact drawsOn_iff.2 (.inl h)
      · obtain ⟨child, hchild, rfl⟩ := List.mem_map.1 hkept
        have hmem := (List.mem_filter.1 hchild).1
        exact drawsOn_iff.2 (.inr ⟨child, hmem, ih child hmem h⟩)

/-- A tree reports the sources of its nodes, all of them and no others, no source twice, and in the
order in which a depth-first traversal meets them first. A merged tree reports every source that the
upper tree reports, and none that neither tree reports; of two objects it reports the sources of the
lower root, too. A filtered tree reports no source that the tree did not report. -/
theorem allSources_account_for_nodes :
    (∀ n : Node, n.entries.Pairwise (fun entry entry' => n.Precedes entry.1.tail entry'.1.tail) ∧
      n.allSources.Pairwise (fun s t => s.sameAs t = false ∧ n.firstMet s < n.firstMet t) ∧
      (∀ s ∈ n.allSources, ∃ path m, n.Leads path m ∧ s ∈ m.sources) ∧
      ∀ path m, n.Leads path m → ∀ s ∈ m.sources, n.Reports s) ∧
    (∀ lower upper : Node,
      (∀ s ∈ upper.allSources, (merge lower upper).Reports s) ∧
      (∀ s ∈ (merge lower upper).allSources, lower.Reports s ∨ upper.Reports s) ∧
      (lower.isObject = true → upper.isObject = true →
        ∀ s ∈ lower.sources, (merge lower upper).Reports s)) ∧
    ∀ (n : Node) (keep : Node → Bool), keep n = true →
      ∃ filtered, n.filterWhere keep = .ok filtered ∧ ∀ s ∈ filtered.allSources, n.Reports s := by
  refine ⟨fun n => ⟨pairwise_precedes_entries n, pairwise_allSources n, fun s hs => ?_,
    fun path m hlead s hs => ?_⟩, fun lower upper => ⟨fun s hs => ?_, fun s hs => ?_,
    fun hlower hupper s hs => ?_⟩, fun n keep hroot => ?_⟩
  · obtain ⟨m, hm, hs⟩ := drawsOn_of_mem_allSources hs
    obtain ⟨path, hlead⟩ := mem_nodes_iff.1 hm
    exact ⟨path, m, hlead, hs⟩
  · exact DrawsOn.reports ⟨m, mem_nodes_iff.2 ⟨path, hlead⟩, hs⟩
  · exact (drawsOn_of_mem_allSources hs).merge.reports
  · rcases drawsOn_of_merge (drawsOn_of_mem_allSources hs) with h | h
    · exact .inl h.reports
    · exact .inr h.reports
  · obtain ⟨label, members, label', others, rfl, rfl⟩ :=
      exists_objects (Bool.and_eq_true_iff.2 ⟨hlower, hupper⟩)
    rw [merge_object]
    exact (drawsOn_object.2 (.inl (List.mem_append_left _ hs))).reports
  · refine ⟨n.pruned keep, by rw [filterWhere, if_pos hroot], fun s hs => ?_⟩
    exact (drawsOn_of_pruned (drawsOn_of_mem_allSources hs)).reports

/-- Both layers have sources of their own, and the filter leaves nothing but the objects. -/
theorem allSources_account_for_nodes_layers :
    (merge lowerLayer upperLayer).allSources = [.literal 0 .null, .literal 1 .null] ∧
    (merge lowerLayer upperLayer).firstMet (.literal 0 .null) <
      (merge lowerLayer upperLayer).firstMet (.literal 1 .null) ∧
    (∀ s ∈ upperLayer.allSources, (merge lowerLayer upperLayer).Reports s) ∧
    lowerLayer.isObject = true ∧ upperLayer.isObject = true ∧
    (merge lowerLayer upperLayer).Reports (.literal 0 .null) ∧
    ∃ filtered, (merge lowerLayer upperLayer).filterWhere isObject = .ok filtered ∧
      ∀ s ∈ filtered.allSources, (merge lowerLayer upperLayer).Reports s := by
  obtain ⟨hlisted, hmerge, hfilter⟩ := allSources_account_for_nodes
  obtain ⟨-, hordered, -⟩ := hlisted (merge lowerLayer upperLayer)
  obtain ⟨hupper, -, hlower⟩ := hmerge lowerLayer upperLayer
  have hsources : (merge lowerLayer upperLayer).allSources =
      [.literal 0 .null, .literal 1 .null] := rfl
  rw [hsources] at hordered
  have hroot : Source.literal 0 .null ∈ lowerLayer.sources := List.mem_cons_self
  refine ⟨hsources, (List.pairwise_pair.1 hordered).2, hupper, rfl, rfl, hlower rfl rfl _ hroot, ?_⟩
  exact hfilter (merge lowerLayer upperLayer) isObject rfl

end Node

end LayeredConfig
