import LayeredConfig.Proofs.Filter.Raw

/-!
# The nodes that filtering keeps

A way leads from a node down to a node inside it and remembers every node that it passes. The ways
of a tree list its nodes in the order of the traversal (`entriesFrom_eq_map_ways`), each with all of
its ancestors (`mem_ways_of_append`). Filtering keeps the ways on which every node is accepted, as
it was before (`entriesFrom_pruned`): what is left of a node stands under the same keys and, in an
array, behind as many elements as are kept in front of it (`Position.closedUp`), and has the same
content.
-/

namespace LayeredConfig

/-- Where a child is found among the siblings that are kept: elements close up, keys stay. -/
def Position.closedUp (keep : Node → Bool) (siblings : List Node) : Position → Position
  | .index i => .index ((siblings.take i).countP keep)
  | position => position

/-- The steps down from a node: the position of every child that is passed, and the child. -/
abbrev Way := List (Position × Node)

/-- Every node that is passed is accepted. -/
def Way.isKept (keep : Node → Bool) (way : Way) : Bool := way.all fun step => keep step.2

@[simp] theorem Way.isKept_nil (keep : Node → Bool) : isKept keep [] = true := rfl

@[simp] theorem Way.isKept_cons (keep : Node → Bool) (position : Position) (child : Node)
    (below : Way) : isKept keep ((position, child) :: below) = (keep child && isKept keep below) :=
  rfl

namespace Node

mutual

/-- The ways to all nodes of a tree, depth first; the first one goes nowhere. -/
def ways : Node → List Way
  | .leaf _ _ => [[]]
  | .array _ items => [] :: itemWays 0 items
  | .object _ members => [] :: memberWays members

/-- The ways to the nodes of elements, the first of which stands at `index`. -/
def itemWays (index : Nat) : List Node → List Way
  | [] => []
  | item :: rest => item.ways.map ((.index index, item) :: ·) ++ itemWays (index + 1) rest

/-- The ways to the nodes of members. -/
def memberWays : List (String × Node) → List Way
  | [] => []
  | (key, child) :: rest => child.ways.map ((.key key, child) :: ·) ++ memberWays rest

end

/-- The node that a way leads to. -/
def reached : Node → Way → Node
  | n, [] => n
  | _, (_, child) :: below => child.reached below

/-- The positions of a way once rejected elements are gone. -/
def closedUp (keep : Node → Bool) : Node → Way → List Position
  | _, [] => []
  | n, (position, child) :: below => position.closedUp keep n.children :: child.closedUp keep below

/-- What a node is apart from its children and its raw value. -/
structure Content where
  shape : Shape
  value? : Option Json
  metadata : Metadata
  sources : List Source

/-- The content of a node. -/
def content (n : Node) : Content := ⟨n.shape, n.value?, n.metadata, n.sources⟩

/-! ### Ways and the traversal -/

theorem itemEntriesFrom_eq_map_itemWays (n : Node) (items : List Node)
    (h : ∀ item ∈ items, ∀ path, entriesFrom path item =
      item.ways.map fun way => (path ++ way.map Prod.fst, item.reached way))
    (path : List Position) (index : Nat) :
    itemEntriesFrom path index items =
      (itemWays index items).map fun way => (path ++ way.map Prod.fst, n.reached way) := by
  induction items generalizing index with
  | nil => simp [itemEntriesFrom, itemWays]
  | cons item rest ih =>
      obtain ⟨hitem, hrest⟩ := List.forall_mem_cons.1 h
      rw [itemEntriesFrom, itemWays, hitem, ih hrest, List.map_append, List.map_map]
      simp [reached, Function.comp_def]

theorem memberEntriesFrom_eq_map_memberWays (n : Node) (members : List (String × Node))
    (h : ∀ entry ∈ members, ∀ path, entriesFrom path entry.2 =
      entry.2.ways.map fun way => (path ++ way.map Prod.fst, entry.2.reached way))
    (path : List Position) :
    memberEntriesFrom path members =
      (memberWays members).map fun way => (path ++ way.map Prod.fst, n.reached way) := by
  induction members with
  | nil => simp [memberEntriesFrom, memberWays]
  | cons entry rest ih =>
      obtain ⟨hentry, hrest⟩ := List.forall_mem_cons.1 h
      rw [memberEntriesFrom, memberWays, hentry, ih hrest, List.map_append, List.map_map]
      simp [reached, Function.comp_def]

/-- The traversal meets the nodes that the ways lead to, in their order. -/
theorem entriesFrom_eq_map_ways (path : List Position) (n : Node) :
    entriesFrom path n = n.ways.map fun way => (path ++ way.map Prod.fst, n.reached way) := by
  induction n using Node.induct generalizing path with
  | leaf label value => simp [entriesFrom, ways, reached]
  | array label items ih =>
      rw [entriesFrom, ways, itemEntriesFrom_eq_map_itemWays (array label items) items ih]
      simp [reached]
  | object label members ih =>
      rw [entriesFrom, ways, memberEntriesFrom_eq_map_memberWays (object label members) members ih]
      simp [reached]

/-! ### Ways and ancestors -/

/-- The steps that lead from a node to its children. -/
def steps : Node → List (Position × Node)
  | .leaf _ _ => []
  | .array _ items => items.zipIdx.map fun (item, index) => (.index index, item)
  | .object _ members => members.map fun (key, child) => (.key key, child)

theorem itemWays_eq_flatMap (index : Nat) (items : List Node) :
    itemWays index items = (items.zipIdx index).flatMap fun (item, i) =>
      item.ways.map ((.index i, item) :: ·) := by
  induction items generalizing index with
  | nil => simp [itemWays]
  | cons item rest ih => simp [itemWays, ih, List.zipIdx_cons]

theorem memberWays_eq_flatMap (members : List (String × Node)) :
    memberWays members = members.flatMap fun (key, child) =>
      child.ways.map ((.key key, child) :: ·) := by
  induction members with
  | nil => simp [memberWays]
  | cons entry rest ih => simp [memberWays, ih]

/-- A way goes nowhere, or it goes to a child and on from there. -/
theorem ways_eq_flatMap (n : Node) :
    n.ways = [] :: n.steps.flatMap fun step => step.2.ways.map (step :: ·) := by
  cases n with
  | leaf label value => simp [ways, steps]
  | array label items => rw [ways, itemWays_eq_flatMap, steps, List.flatMap_map]
  | object label members => rw [ways, memberWays_eq_flatMap, steps, List.flatMap_map]

theorem cons_mem_ways_iff {n : Node} {step : Position × Node} {below : Way} :
    step :: below ∈ n.ways ↔ step ∈ n.steps ∧ below ∈ step.2.ways := by
  rw [ways_eq_flatMap]
  simp only [List.mem_cons, reduceCtorEq, false_or, List.mem_flatMap, List.mem_map, List.cons.injEq]
  constructor
  · rintro ⟨s, hs, way, hway, rfl, rfl⟩
    exact ⟨hs, hway⟩
  · rintro ⟨hs, hbelow⟩
    exact ⟨step, hs, below, hbelow, rfl, rfl⟩

/-- A way passes its ancestors: as far as it has come, it is a way itself. -/
theorem mem_ways_of_append {n : Node} {above below : Way} (h : above ++ below ∈ n.ways) :
    above ∈ n.ways := by
  induction above generalizing n with
  | nil =>
      rw [ways_eq_flatMap]
      exact List.mem_cons_self
  | cons step rest ih =>
      obtain ⟨hstep, hrest⟩ := cons_mem_ways_iff.1 h
      exact cons_mem_ways_iff.2 ⟨hstep, ih hrest⟩

/-! ### Ways that are kept -/

variable {keep : Node → Bool}

/-- On the way through a child nothing is kept unless the child is. -/
theorem filter_isKept_map_cons (position : Position) (child : Node) (ways : List Way) :
    (ways.map ((position, child) :: ·)).filter (Way.isKept keep) =
      if keep child then (ways.filter (Way.isKept keep)).map ((position, child) :: ·) else [] := by
  rw [List.filter_map]
  cases hk : keep child <;> simp [Function.comp_def, hk]

theorem itemEntriesFrom_pruned {n : Node} (path : List Position) (before items : List Node)
    (hn : n.children = before ++ items)
    (h : ∀ item ∈ items, ∀ path, entriesFrom path (item.pruned keep) =
      (item.ways.filter (Way.isKept keep)).map fun way =>
        (path ++ item.closedUp keep way, (item.reached way).pruned keep)) :
    itemEntriesFrom path (before.countP keep) ((items.filter keep).map (pruned keep)) =
      ((itemWays before.length items).filter (Way.isKept keep)).map fun way =>
        (path ++ n.closedUp keep way, (n.reached way).pruned keep) := by
  -- The siblings in front are carried along: their number is the old index, and the number of those
  -- among them that are kept is the new one.
  induction items generalizing before with
  | nil => simp [itemEntriesFrom, itemWays]
  | cons item rest ih =>
      obtain ⟨hitem, hrest⟩ := List.forall_mem_cons.1 h
      have hbelow := ih (before ++ [item]) (by simp [hn]) hrest
      rw [List.length_append, List.length_singleton, List.countP_append, List.countP_singleton]
        at hbelow
      rw [itemWays, List.filter_append, filter_isKept_map_cons]
      cases hk : keep item with
      | false =>
          rw [hk] at hbelow
          simpa [hk] using hbelow
      | true =>
          rw [hk] at hbelow
          have hindex : (Position.index before.length).closedUp keep n.children =
              .index (before.countP keep) := by
            rw [Position.closedUp, hn, List.take_left]
          rw [List.filter_cons_of_pos hk, List.map_cons, itemEntriesFrom, hitem]
          simp only [if_true] at hbelow ⊢
          rw [hbelow, List.map_append, List.map_map]
          simp [Function.comp_def, closedUp, reached, hindex]

theorem memberEntriesFrom_pruned {n : Node} (path : List Position) (members : List (String × Node))
    (h : ∀ entry ∈ members, ∀ path, entriesFrom path (entry.2.pruned keep) =
      (entry.2.ways.filter (Way.isKept keep)).map fun way =>
        (path ++ entry.2.closedUp keep way, (entry.2.reached way).pruned keep)) :
    memberEntriesFrom path
        (Members.mapValues (pruned keep) (members.filter fun entry => keep entry.2)) =
      ((memberWays members).filter (Way.isKept keep)).map fun way =>
        (path ++ n.closedUp keep way, (n.reached way).pruned keep) := by
  induction members with
  | nil => simp [memberEntriesFrom, memberWays, Members.mapValues]
  | cons entry rest ih =>
      obtain ⟨key, child⟩ := entry
      obtain ⟨hchild, hrest⟩ := List.forall_mem_cons.1 h
      rw [memberWays, List.filter_append, filter_isKept_map_cons]
      cases hk : keep child with
      | false => simpa [hk] using ih hrest
      | true =>
          have hkept : ((key, child) :: rest).filter (fun entry => keep entry.2) =
              (key, child) :: rest.filter fun entry => keep entry.2 := List.filter_cons_of_pos hk
          rw [hkept, Members.mapValues_cons, memberEntriesFrom, hchild, ih hrest, if_pos rfl,
            List.map_append]
          simp [Function.comp_def, closedUp, reached, Position.closedUp]

/-- The traversal of a filtered tree meets what is left of the nodes that ways of accepted nodes
lead to. -/
theorem entriesFrom_pruned (path : List Position) (n : Node) :
    entriesFrom path (n.pruned keep) =
      (n.ways.filter (Way.isKept keep)).map fun way =>
        (path ++ n.closedUp keep way, (n.reached way).pruned keep) := by
  induction n using Node.induct generalizing path with
  | leaf label value =>
      rw [ways, List.filter_cons_of_pos rfl, pruned_leaf, entriesFrom]
      simp [closedUp, reached, pruned_leaf]
  | array label items ih =>
      have hitems := itemEntriesFrom_pruned (n := array label items) path [] items rfl ih
      rw [List.countP_nil, List.length_nil] at hitems
      rw [ways, List.filter_cons_of_pos (by rfl), List.map_cons, ← hitems, pruned_array,
        entriesFrom, closedUp, reached, pruned_array, List.append_nil]
  | object label members ih =>
      have hmembers := memberEntriesFrom_pruned (n := object label members) path members ih
      rw [ways, List.filter_cons_of_pos (by rfl), List.map_cons, ← hmembers, pruned_object,
        entriesFrom, closedUp, reached, pruned_object, List.append_nil]

theorem content_pruned (n : Node) : (n.pruned keep).content = n.content := by
  cases n with
  | leaf label value => rw [pruned_leaf]
  | array label items => rw [pruned_array]; rfl
  | object label members => rw [pruned_object]; rfl

/-- Filtering fails exactly when the root is rejected. The ways of a tree are its nodes in the order
of the traversal, each with its ancestors. Else filtering keeps, in that order, the nodes that are
accepted themselves and have no rejected node above them; all are judged as they were before. A node
that is kept has its content, its keys, and the place in an array that the elements kept in front of
it give it. -/
theorem filterWhere_keeps_accepted (keep : Node → Bool) (n : Node) :
    ((∃ message, n.filterWhere keep = .error (.internal message)) ↔ keep n = false) ∧
    n.entries = n.ways.map (fun way => (.root :: way.map Prod.fst, n.reached way)) ∧
    (∀ above below, above ++ below ∈ n.ways → above ∈ n.ways) ∧
    (keep n = true → ∃ filtered, n.filterWhere keep = .ok filtered ∧
      filtered.entries.map (fun entry => (entry.1, entry.2.content)) =
        (n.ways.filter (Way.isKept keep)).map fun way =>
          (.root :: n.closedUp keep way, (n.reached way).content)) := by
  refine ⟨?_, entriesFrom_eq_map_ways [.root] n, fun _ _ => mem_ways_of_append, fun hroot => ?_⟩
  · cases hk : keep n <;> simp [filterWhere, hk]
  · refine ⟨n.pruned keep, by rw [filterWhere, if_pos hroot], ?_⟩
    rw [entries, entriesFrom_pruned, List.map_map]
    apply List.map_congr_left
    intro way _
    exact congrArg (Prod.mk _) (content_pruned (n.reached way))

/-- Numbers in arrays that filtering closes up. -/
def nestedNumbers : Node :=
  literal (.literal 0 .null) .empty
    (.object [("a", .array [.ofInt 2, .ofInt 1, .array [.ofInt 2, .ofInt 3]]), ("b", .ofInt 2)])

/-- Whether a node holds anything but the number two. -/
def notTwo (n : Node) : Bool := n.toJson ≠ .ofInt 2

theorem filterWhere_keeps_accepted_nestedNumbers :
    notTwo nestedNumbers = true ∧
    ∃ filtered, nestedNumbers.filterWhere notTwo = .ok filtered ∧
      filtered.entries.map Prod.fst = [[.root], [.root, .key "a"], [.root, .key "a", .index 0],
        [.root, .key "a", .index 1], [.root, .key "a", .index 1, .index 0]] := by
  obtain ⟨-, -, -, hkept⟩ := filterWhere_keeps_accepted notTwo nestedNumbers
  obtain ⟨filtered, hok, hentries⟩ := hkept (by decide)
  refine ⟨by decide, filtered, hok, ?_⟩
  have hpositions := congrArg (List.map Prod.fst) hentries
  rw [List.map_map, List.map_map] at hpositions
  exact hpositions.trans (by decide)

end Node

end LayeredConfig
