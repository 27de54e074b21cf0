import Mathlib.Data.List.Nodup
import LayeredConfig.Proofs.Filter.Survivors
import LayeredConfig.Proofs.Node.Paths

/-!
# The order of the traversal

`n.Precedes p q` is the depth-first order of the paths that lead down from `n`: a path comes before
the paths that go on from it, and of two paths that part at a node the one with the earlier child
comes first. The traversal lists its entries in this order (`pairwise_precedes_entries`). Where keys
are distinct no two paths come before each other, so this is the only order that they can be listed
in (`KeysDistinct.not_precedes`), and the traversal meets no path twice.
-/

namespace LayeredConfig

/-- In a list that repeats nothing, of two elements only one stands behind the other. -/
theorem not_sublist_swap {α : Type} {xs : List α} (hd : xs.Nodup) {a b : α}
    (h : [a, b].Sublist xs) : ¬ [b, a].Sublist xs := by
  induction xs with
  | nil => cases h
  | cons x rest ih =>
      obtain ⟨hx, hrest⟩ := List.nodup_cons.1 hd
      intro hswap
      cases h with
      | cons _ h =>
          cases hswap with
          | cons _ hswap => exact ih hrest h hswap
          | cons_cons _ hswap => exact hx (h.subset (List.mem_cons_of_mem _ List.mem_cons_self))
      | cons_cons _ h =>
          have hb := List.singleton_sublist.1 h
          cases hswap with
          | cons _ hswap => exact hx (hswap.subset (List.mem_cons_of_mem _ List.mem_cons_self))
          | cons_cons _ hswap => exact hx hb

namespace Node

/-- In depth-first order, the first path down from a node comes before the second one. -/
inductive Precedes : Node → List Position → List Position → Prop
  /-- A node comes before all that is below it. -/
  | above (n : Node) (position : Position) (path : List Position) : Precedes n [] (position :: path)
  /-- An earlier child comes with all that is below it before a later one. -/
  | apart {n : Node} {first second : Position} {path path' : List Position} :
      [first, second].Sublist (n.steps.map Prod.fst) →
        Precedes n (first :: path) (second :: path')
  /-- Below one child its own order counts. -/
  | within {n child : Node} {position : Position} {path path' : List Position} :
      (position, child) ∈ n.steps → Precedes child path path' →
        Precedes n (position :: path) (position :: path')

variable {n : Node} {path : List Position}

/-! ### Steps to children -/

theorem mem_steps_array {label : Label} {items : List Node} {step : Position × Node} :
    step ∈ (array label items).steps ↔
      ∃ index, step.1 = .index index ∧ items[index]? = some step.2 := by
  obtain ⟨position, child⟩ := step
  simp only [steps, List.mem_map, Prod.exists, List.mk_mem_zipIdx_iff_getElem?, Prod.mk.injEq]
  constructor
  · rintro ⟨item, index, hitem, rfl, rfl⟩
    exact ⟨index, rfl, hitem⟩
  · rintro ⟨index, rfl, hitem⟩
    exact ⟨child, index, hitem, rfl, rfl⟩

theorem mem_steps_object {label : Label} {members : List (String × Node)}
    {step : Position × Node} :
    step ∈ (object label members).steps ↔ ∃ key, step.1 = .key key ∧ (key, step.2) ∈ members := by
  obtain ⟨position, child⟩ := step
  simp only [steps, List.mem_map, Prod.exists, Prod.mk.injEq]
  constructor
  · rintro ⟨key, _, hmem, rfl, rfl⟩
    exact ⟨key, rfl, hmem⟩
  · rintro ⟨key, rfl, hmem⟩
    exact ⟨key, child, hmem, rfl, rfl⟩

theorem mem_children_of_mem_steps {step : Position × Node} (h : step ∈ n.steps) :
    step.2 ∈ n.children := by
  cases n with
  | leaf label value => cases h
  | array label items =>
      obtain ⟨index, -, hitem⟩ := mem_steps_array.1 h
      exact List.mem_of_getElem? hitem
  | object label members =>
      obtain ⟨key, -, hmem⟩ := mem_steps_object.1 h
      exact List.mem_map_of_mem hmem

/-- Where keys are distinct, no two children stand at one position. -/
theorem nodup_positions_steps (h : Members.Distinct (n.members?.getD [])) :
    (n.steps.map Prod.fst).Nodup := by
  cases n with
  | leaf label value => exact List.nodup_nil
  | array label items =>
      have hindices : (array label items).steps.map Prod.fst =
          (List.range items.length).map .index := by
        rw [List.range_eq_range', ← List.zipIdx_map_snd 0 items, steps, List.map_map, List.map_map]
        rfl
      rw [hindices]
      exact List.nodup_range.map fun i j hij => Position.index.inj hij
  | object label members =>
      have hkeys : (object label members).steps.map Prod.fst =
          (Members.keys members).map .key := by
        simp [steps, Members.keys, Function.comp_def]
      rw [hkeys]
      exact h.map fun key other hkey => Position.key.inj hkey

/-! ### The traversal -/

/-- The nodes of a tree are those that paths lead to. -/
theorem mem_nodes_iff {m : Node} : m ∈ n.nodes ↔ ∃ path, n.Leads path m := by
  rw [nodes, List.mem_map]
  constructor
  · rintro ⟨⟨path, m⟩, hentry, rfl⟩
    obtain ⟨below, -, hlead⟩ := mem_entries_iff.1 hentry
    exact ⟨below, hlead⟩
  · rintro ⟨path, hlead⟩
    exact ⟨(.root :: path, m), mem_entries_iff.2 ⟨path, rfl, hlead⟩, rfl⟩

theorem pairwise_precedes_ways (n : Node) :
    n.ways.Pairwise fun way way' => n.Precedes (way.map Prod.fst) (way'.map Prod.fst) := by
  induction n using induct_children with
  | step n ih =>
      rw [ways_eq_flatMap, List.pairwise_cons, List.pairwise_flatMap]
      refine ⟨fun way hway => ?_, fun step hstep => ?_, ?_⟩
      · obtain ⟨step, -, hway⟩ := List.mem_flatMap.1 hway
        obtain ⟨below, -, rfl⟩ := List.mem_map.1 hway
        exact .above n step.1 (below.map Prod.fst)
      · rw [List.pairwise_map]
        exact (ih step.2 (mem_children_of_mem_steps hstep)).imp fun h => .within hstep h
      · rw [List.pairwise_iff_forall_sublist]
        intro first second hsub way hway way' hway'
        obtain ⟨below, -, rfl⟩ := List.mem_map.1 hway
        obtain ⟨below', -, rfl⟩ := List.mem_map.1 hway'
        exact .apart (hsub.map Prod.fst)

/-- The traversal lists its entries in depth-first order. -/
theorem pairwise_precedes_entries (n : Node) :
    n.entries.Pairwise fun entry entry' => n.Precedes entry.1.tail entry'.1.tail := by
  rw [entries, entriesFrom_eq_map_ways, List.pairwise_map]
  exact pairwise_precedes_ways n

/-- Where keys are distinct, of two paths at most one comes before the other. -/
theorem KeysDistinct.not_precedes (h : n.KeysDistinct) {path' : List Position}
    (hprecedes : n.Precedes path path') : ¬ n.Precedes path' path := by
  induction hprecedes with
  | above n position path => exact nofun
  | @apart n first second path path' hsub =>
      have hpositions := nodup_positions_steps h.root
      intro hback
      cases hback with
      | apart hback => exact not_sublist_swap hpositions hsub hback
      | within _ _ => exact List.nodup_iff_sublist.1 hpositions _ hsub
  | @within n child position path path' hstep _ ih =>
      have hpositions := nodup_positions_steps h.root
      intro hback
      cases hback with
      | apart hback => exact List.nodup_iff_sublist.1 hpositions _ hback
      | within hstep' hback =>
          obtain ⟨-, rfl⟩ := Prod.mk.inj (List.inj_on_of_nodup_map hpositions hstep' hstep rfl)
          have hchild := (everywhere_iff.1 h).2 _ (mem_children_of_mem_steps hstep)
          exact ih hchild hback

/-- Where keys are distinct, no path is met twice. -/
theorem KeysDistinct.nodup_paths_entries (h : n.KeysDistinct) :
    (n.entries.map Prod.fst).Nodup := by
  rw [List.Nodup, List.pairwise_map]
  refine (pairwise_precedes_entries n).imp fun hprecedes hsame => ?_
  rw [hsame] at hprecedes
  exact h.not_precedes hprecedes hprecedes

end Node

end LayeredConfig
