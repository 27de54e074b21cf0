import LayeredConfig.Proofs.Evaluation.Outcome
import LayeredConfig.Proofs.Filter.Raw
import LayeredConfig.Proofs.ObjectStep.Reference

/-!
# Which sources a node has

A node that is made from a value has the one source that the value came from. Only the merging of
two objects puts sources together, so every node of a tree has a source, and a node that is no
object has a single one (`Node.Sourced`). All that can be done with trees keeps this.
`Node.Made given` closes some given trees under literals, nodes built by a caller, merging,
filtering, other metadata at the root, and evaluations whose transforms answer with trees made in
these ways; `Node.Made.sourced` goes along the way in which a tree was made. Inside an evaluation
the same is an invariant of calls (`Call.invariant_sourced`).
-/

namespace LayeredConfig

/-! ### Trees and their sources -/

namespace Node

/-- Every node of the tree has a source, and only objects have more than one. -/
def Sourced (n : Node) : Prop :=
  n.Everywhere fun m => m.sources ≠ [] ∧ (m.isObject = false → ∃ source, m.sources = [source])

theorem sourced_leaf {label : Label} {value : Json} {source : Source}
    (h : label.sources = [source]) : (leaf label value).Sourced :=
  everywhere_leaf.2 ⟨by simp [sources, h], fun _ => ⟨source, h⟩⟩

theorem sourced_array {label : Label} {items : List Node} {source : Source}
    (h : label.sources = [source]) (hitems : ∀ item ∈ items, item.Sourced) :
    (array label items).Sourced :=
  everywhere_array.2 ⟨⟨by simp [sources, h], fun _ => ⟨source, h⟩⟩, hitems⟩

theorem sourced_object {label : Label} {members : List (String × Node)} (h : label.sources ≠ [])
    (hmembers : ∀ entry ∈ members, entry.2.Sourced) : (object label members).Sourced :=
  everywhere_object.2 ⟨⟨h, nofun⟩, hmembers⟩

@[simp] theorem sourced_withMetadata {n : Node} {metadata : Metadata} :
    (n.withMetadata metadata).Sourced ↔ n.Sourced := by
  rw [Sourced, Sourced, everywhere_iff, everywhere_iff (n := n), children_withMetadata,
    sources_withMetadata, isObject_withMetadata]

theorem sourced_literal (source : Source) (metadata : Metadata) (v : Json) :
    (literal source metadata v).Sourced := by
  induction v using Json.induct with
  | array items ih =>
      rw [literal_array]
      exact sourced_array rfl (List.forall_mem_map.2 ih)
  | object members ih =>
      rw [literal_object]
      exact sourced_object (List.cons_ne_nil _ _) (List.forall_mem_map.2 ih)
  | _ => rw [literal_of_isPrimitive _ _ rfl]; exact sourced_leaf rfl

theorem Sourced.merge {lower upper : Node} (hl : lower.Sourced) (hu : upper.Sourced) :
    (Node.merge lower upper).Sourced := by
  refine Everywhere.merge (fun a b ha hb => ?_) hl hu
  cases hobj : a.isObject && b.isObject with
  | false => rwa [merge_of_not_object hobj, sources_withMetadata, isObject_withMetadata]
  | true =>
      obtain ⟨label, members, label', others, rfl, rfl⟩ := exists_objects hobj
      rw [merge_object]
      exact ⟨List.append_ne_nil_of_left_ne_nil ha.1 _, nofun⟩

/-- Filtering changes raw values alone in the labels of the nodes that it keeps. -/
theorem Sourced.pruned {keep : Node → Bool} {n : Node} (h : n.Sourced) :
    (n.pruned keep).Sourced := by
  induction n using Node.induct with
  | leaf label value => rwa [pruned_leaf]
  | array label items ih =>
      obtain ⟨⟨-, hsource⟩, hitems⟩ := everywhere_array.1 h
      obtain ⟨source, hlabel⟩ := hsource rfl
      rw [pruned_array]
      refine sourced_array hlabel (List.forall_mem_map.2 fun item hitem => ?_)
      have hitem := (List.mem_filter.1 hitem).1
      exact ih item hitem (hitems item hitem)
  | object label members ih =>
      obtain ⟨⟨hlabel, -⟩, hmembers⟩ := everywhere_object.1 h
      rw [pruned_object]
      refine sourced_object hlabel (List.forall_mem_map.2 fun entry hentry => ?_)
      have hentry := (List.mem_filter.1 hentry).1
      exact ih entry hentry (hmembers entry hentry)

end Node

/-! ### Evaluations -/

/-- An object that is put together from members with sources of their own has its sources from them
and from its frame. -/
theorem ObjectStep.sourced_of_result_run {path : String} {label : Label}
    {members : List (String × Node)} {node : Node} (hlabel : label.sources ≠ [])
    (hmembers : ∀ entry ∈ members, entry.2.Sourced)
    (hok : (run path label members).result = .ok node) : node.Sourced := by
  have hplain : ∀ entry ∈ members, entry.2.withoutInstructions.Sourced :=
    fun entry hentry => Node.sourced_withMetadata.2 (hmembers entry hentry)
  have hkept := forall_mem_kept fun entry hentry => ⟨hmembers entry hentry, hplain entry hentry⟩
  exact of_result_run (fun _ _ => Node.Sourced.merge) (fun _ => Node.sourced_withMetadata.2)
    (Node.sourced_object hlabel fun kept hmem => hkept kept (Members.mem_ofList hmem)) hplain hok

section

variable {ι : Type} [DecidableEq ι] {catalogue : Catalogue ι} {extensions : List ι}

/-- The program answers with a tree that has its sources when all trees that it had evaluated do. -/
def Program.KeepsSources (p : Program ι Node) : Prop :=
  ∀ trees answer, p.Answers trees answer → (∀ tree ∈ trees, tree.Sourced) → answer.Sourced

/-- Every step of an evaluation gives its tree sources. -/
theorem Call.invariant_sourced
    (hprograms : ∀ e, Active catalogue extensions e → (catalogue e).Programs Program.KeepsSources) :
    Invariant catalogue fun call node =>
      (∀ e ∈ call.frame.extensions, Active catalogue extensions e) → node.Sourced where
  leaf frame value _ _ _ := Node.sourced_leaf rfl
  array frame items children _ hchildren hactive := by
    refine Node.sourced_array rfl fun child hchild => ?_
    obtain ⟨inner, henters, hinner⟩ := hchildren child hchild
    exact hinner (henters.active hactive)
  object frame members children node _ hchildren hok hactive := by
    refine ObjectStep.sourced_of_result_run (List.cons_ne_nil _ _) (fun entry hentry => ?_) hok
    obtain ⟨inner, henters, hinner⟩ := hchildren entry hentry
    exact hinner (henters.active hactive)
  again frame value e transform trees node hmatch hanswers htrees hactive := by
    have he := hprograms e (hactive e (mem_extensions_of_match? hmatch))
    refine he.of_match? hmatch trees node hanswers fun tree htree => ?_
    obtain ⟨inner, hreenters, hinner⟩ := htrees tree htree
    exact hinner (hreenters.active hactive)

end

/-! ### Trees that can be made -/

namespace Node

/-- The trees that can be made from given ones. In an evaluation, a transform makes its answer from
the trees that it had evaluated and from those that are given outside. -/
inductive Made : List Node → Node → Prop
  | given {given : List Node} {n : Node} : n ∈ given → Made given n
  /-- A part of a tree is a tree of its own. -/
  | part {given : List Node} {n m : Node} : Made given n → m ∈ n.nodes → Made given m
  | literal {given : List Node} (source : Source) (metadata : Metadata) (v : Json) :
      Made given (.literal source metadata v)
  | leaf {given : List Node} (source : Source) (raw value : Json) :
      Made given (.leaf (.of source raw) value)
  | array {given items : List Node} (source : Source) (raw : Json) :
      (∀ item ∈ items, Made given item) → Made given (.array (.of source raw) items)
  | object {given : List Node} {members : List (String × Node)} (source : Source) (raw : Json) :
      (∀ entry ∈ members, Made given entry.2) → Made given (.object (.of source raw) members)
  | merge {given : List Node} {lower upper : Node} :
      Made given lower → Made given upper → Made given (lower.merge upper)
  | mergeAll {given layers : List Node} {folded : Node} :
      (∀ layer ∈ layers, Made given layer) → Node.mergeAll layers = some folded → Made given folded
  | filterWhere {given : List Node} {keep : Node → Bool} {n filtered : Node} :
      Made given n → n.filterWhere keep = .ok filtered → Made given filtered
  | addMetadata {given : List Node} {n : Node} (upper : Metadata) :
      Made given n → Made given (n.addMetadata upper)
  | dropMetadata {given : List Node} {n : Node} (key : String) :
      Made given n → Made given (n.dropMetadata key)
  | evaluated {given : List Node} {ι : Type} [DecidableEq ι] {catalogue : Catalogue ι}
      {ev : Evaluator ι} {limit : Nat} {raw : Json} {source : Source} {tree : Node} :
      (∀ e, Active catalogue ev.extensions e →
        ∀ value position ancestors context transform,
          (catalogue e).applies value position ancestors context = some transform →
            ∀ input trees answer, (transform input).Answers trees answer →
              Made (trees ++ given) answer) →
        (ev.evaluateWithin catalogue limit raw source).result = .ok tree → Made given tree

/-- What is made from trees that have their sources has its own. -/
theorem Made.sourced {given : List Node} {n : Node} (h : Made given n)
    (hgiven : ∀ tree ∈ given, tree.Sourced) : n.Sourced := by
  induction h with
  | given hmem => exact hgiven _ hmem
  | part _ hmem ih => exact (ih hgiven).everywhere _ hmem
  | literal source metadata v => exact sourced_literal source metadata v
  | leaf source raw value => exact sourced_leaf rfl
  | array source raw _ ih => exact sourced_array rfl fun item hitem => ih item hitem hgiven
  | object source raw _ ih =>
      exact sourced_object (List.cons_ne_nil _ _) fun entry hentry => ih entry hentry hgiven
  | merge _ _ hlower hupper => exact (hlower hgiven).merge (hupper hgiven)
  | mergeAll _ hfold ih =>
      have hlayers := fun layer hlayer => ih layer hlayer hgiven
      refine of_mergeAll hlayers (fun lower hlower layer hlayer => ?_) hfold
      exact hlower.merge (hlayers layer hlayer)
  | @filterWhere _ keep n _ _ hfilter ih =>
      rw [Node.filterWhere] at hfilter
      split at hfilter
      · obtain rfl := Except.ok.inj hfilter
        exact (ih hgiven).pruned
      · cases hfilter
  | addMetadata upper _ ih => exact sourced_withMetadata.2 (ih hgiven)
  | dropMetadata key _ ih => exact sourced_withMetadata.2 (ih hgiven)
  | @evaluated given ι _ catalogue ev limit raw source tree _ hok ih =>
      have hprograms : ∀ e, Active catalogue ev.extensions e →
          (catalogue e).Programs Program.KeepsSources := by
        intro e he value position ancestors context transform happlies input trees answer hanswers
          htrees
        refine ih e he value position ancestors context transform happlies input trees answer
          hanswers fun tree htree => ?_
        exact (List.mem_append.1 htree).elim (htrees tree) (hgiven tree)
      exact (Call.invariant_sourced hprograms).of_result ⟨ev.rootFrame raw source, raw⟩ hok
        fun e he => .listed he

/-- However a tree was made, every node of it has a source, and a leaf or an array has exactly
one. -/
theorem sources_of_made {n : Node} (h : Made [] n) :
    n.Everywhere fun m =>
      m.sources ≠ [] ∧ (m.isObject = false → ∃ source, m.sources = [source]) :=
  h.sourced nofun

/-- A directive that puts its value over a default and has both merged into the object around it. -/
def defaulting : Catalogue Unit := fun _ =>
  .keyDirective "$over" fun v input => .parse v {} fun
    | .ok tree =>
      let default := Node.literal input.source .empty (.object [("port", .null), ("host", .null)])
      .done ((default.merge tree).addMetadata ⟨[(Metadata.shouldMerge, .bool true)]⟩)
    | .error e => .fail e

/-- A layer with the directive. -/
def defaultingLayer : Json := .object [("db", .object [("$over", .object [("port", .ofInt 1)])])]

/-- A layer that replaces what the directive has put there. -/
def replacingLayer : Node :=
  .literal (.literal 2 .null) .empty (.object [("db", .object [("port", .array [.ofInt 2])])])

/-- Whether a node is anything but the leaf `null`. -/
def present (n : Node) : Bool := n.value? != some .null

theorem made_defaulting {given : List Node} {source : Source} {limit : Nat} {tree : Node}
    (hok : ((Evaluator.mk [()] .empty .empty).evaluateWithin defaulting limit defaultingLayer
      source).result = .ok tree) : Made given tree := by
  refine .evaluated (fun e _ value position ancestors context transform happlies input => ?_) hok
  refine Extension.programs_keyDirective (P := fun p => ∀ trees answer, p.Answers trees answer →
    Made (trees ++ given) answer) (fun v input trees answer hanswers => ?_)
    value position ancestors context transform happlies input
  cases hanswers with
  | given h =>
      cases h
      exact .addMetadata _ (.merge (.literal _ _ _) (.given List.mem_cons_self))
  | failed h => cases h

/-- The array that replaced a number has one source, and so has each leaf, though the object above
was merged from three trees. -/
theorem sources_of_made_layered :
    ∃ tree kept, ((Evaluator.mk [()] .empty .empty).evaluateWithin defaulting 6 defaultingLayer
        (.literal 1 .null)).result = .ok tree ∧
      (tree.merge replacingLayer).filterWhere present = .ok kept ∧
      kept.toJson = .object [("db", .object [("port", .array [.ofInt 2])])] ∧
      Made [] kept ∧
      kept.Everywhere fun m =>
        m.sources ≠ [] ∧ (m.isObject = false → ∃ source, m.sources = [source]) := by
  obtain ⟨tree, kept, hok, hfilter, hvalue⟩ : ∃ tree kept,
      ((Evaluator.mk [()] .empty .empty).evaluateWithin defaulting 6 defaultingLayer
        (.literal 1 .null)).result = .ok tree ∧
      (tree.merge replacingLayer).filterWhere present = .ok kept ∧
      kept.toJson = .object [("db", .object [("port", .array [.ofInt 2])])] :=
    ⟨_, _, rfl, rfl, rfl⟩
  have hmade : Made [] kept := .filterWhere (.merge (made_defaulting hok) (.literal _ _ _)) hfilter
  exact ⟨tree, kept, hok, hfilter, hvalue, hmade, sources_of_made hmade⟩

end Node

end LayeredConfig
