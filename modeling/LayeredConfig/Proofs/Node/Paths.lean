import LayeredConfig.Node.Traversal

/-!
# Paths inside a tree

`n.Leads path m` says that the positions of `path` lead from `n` down to `m`. It is the relation
that the traversal of a tree writes down: `mem_entriesFrom_iff` reads an entry of the traversal as
a path, and the equations for leaves, arrays and objects take a path apart from its first step.
-/

namespace LayeredConfig

namespace Node

/-- The positions lead from a node down to a node inside it. -/
inductive Leads : Node → List Position → Node → Prop
  | here (n : Node) : Leads n [] n
  | item {label : Label} {items : List Node} {index : Nat} {item m : Node} {path : List Position} :
      items[index]? = some item → Leads item path m →
        Leads (.array label items) (.index index :: path) m
  | member {label : Label} {members : List (String × Node)} {key : String} {child m : Node}
      {path : List Position} :
      (key, child) ∈ members → Leads child path m →
        Leads (.object label members) (.key key :: path) m

variable {n m : Node} {path : List Position}

@[simp] theorem leads_nil : n.Leads [] m ↔ m = n := by
  constructor
  · rintro ⟨⟩
    rfl
  · rintro rfl
    exact .here m

theorem leads_leaf {label : Label} {value : Json} :
    (leaf label value).Leads path m ↔ path = [] ∧ m = leaf label value := by
  constructor
  · rintro ⟨⟩
    exact ⟨rfl, rfl⟩
  · rintro ⟨rfl, rfl⟩
    exact .here _

theorem leads_array {label : Label} {items : List Node} :
    (array label items).Leads path m ↔
      (path = [] ∧ m = array label items) ∨
        ∃ index item below, items[index]? = some item ∧ path = .index index :: below ∧
          item.Leads below m := by
  constructor
  · intro h
    cases h with
    | here => exact .inl ⟨rfl, rfl⟩
    | item hitem h => exact .inr ⟨_, _, _, hitem, rfl, h⟩
  · rintro (⟨rfl, rfl⟩ | ⟨index, item, below, hitem, rfl, h⟩)
    · exact .here _
    · exact .item hitem h

theorem leads_object {label : Label} {members : List (String × Node)} :
    (object label members).Leads path m ↔
      (path = [] ∧ m = object label members) ∨
        ∃ key child below, (key, child) ∈ members ∧ path = .key key :: below ∧
          child.Leads below m := by
  constructor
  · intro h
    cases h with
    | here => exact .inl ⟨rfl, rfl⟩
    | member hchild h => exact .inr ⟨_, _, _, hchild, rfl, h⟩
  · rintro (⟨rfl, rfl⟩ | ⟨key, child, below, hchild, rfl, h⟩)
    · exact .here _
    · exact .member hchild h

/-- A path that goes down at all does not see the label it starts from. -/
theorem leads_withMetadata_cons {metadata : Metadata} {position : Position} :
    (n.withMetadata metadata).Leads (position :: path) m ↔ n.Leads (position :: path) m := by
  cases n with
  | leaf label value => exact leads_leaf.trans (by simp [leads_leaf])
  | array label items => exact leads_array.trans (by simp [leads_array])
  | object label members => exact leads_object.trans (by simp [leads_object])

/-! ### The traversal -/

theorem mem_itemEntriesFrom_iff {base : List Position} {index : Nat} {items : List Node}
    (h : ∀ item ∈ items, ∀ base path, (path, m) ∈ entriesFrom base item ↔
      ∃ below, path = base ++ below ∧ item.Leads below m) :
    (path, m) ∈ itemEntriesFrom base index items ↔
      ∃ i item below, items[i]? = some item ∧ path = base ++ .index (index + i) :: below ∧
        item.Leads below m := by
  induction items generalizing index with
  | nil => simp [itemEntriesFrom]
  | cons first rest ih =>
      obtain ⟨hfirst, hrest⟩ := List.forall_mem_cons.1 h
      rw [itemEntriesFrom, List.mem_append, hfirst, ih hrest]
      constructor
      · rintro (⟨below, rfl, hlead⟩ | ⟨i, item, below, hitem, rfl, hlead⟩)
        · exact ⟨0, first, below, rfl, by simp, hlead⟩
        · exact ⟨i + 1, item, below, hitem, by simp [Nat.add_left_comm, Nat.add_comm], hlead⟩
      · rintro ⟨i, item, below, hitem, rfl, hlead⟩
        cases i with
        | zero =>
            obtain rfl : first = item := Option.some.inj hitem
            exact .inl ⟨below, by simp, hlead⟩
        | succ i =>
            refine .inr ⟨i, item, below, hitem, ?_, hlead⟩
            rw [show index + (i + 1) = index + 1 + i by omega]

theorem mem_memberEntriesFrom_iff {base : List Position} {members : List (String × Node)}
    (h : ∀ entry ∈ members, ∀ base path, (path, m) ∈ entriesFrom base entry.2 ↔
      ∃ below, path = base ++ below ∧ entry.2.Leads below m) :
    (path, m) ∈ memberEntriesFrom base members ↔
      ∃ key child below, (key, child) ∈ members ∧ path = base ++ .key key :: below ∧
        child.Leads below m := by
  induction members with
  | nil => simp [memberEntriesFrom]
  | cons first rest ih =>
      obtain ⟨key, child⟩ := first
      obtain ⟨hfirst, hrest⟩ := List.forall_mem_cons.1 h
      rw [memberEntriesFrom, List.mem_append, hfirst, ih hrest]
      constructor
      · rintro (⟨below, rfl, hlead⟩ | ⟨k, c, below, hmem, rfl, hlead⟩)
        · exact ⟨key, child, below, List.mem_cons_self, by simp, hlead⟩
        · exact ⟨k, c, below, List.mem_cons_of_mem _ hmem, rfl, hlead⟩
      · rintro ⟨k, c, below, hmem, rfl, hlead⟩
        rcases List.mem_cons.1 hmem with heq | hmem
        · cases heq
          exact .inl ⟨below, by simp, hlead⟩
        · exact .inr ⟨k, c, below, hmem, rfl, hlead⟩

/-- The traversal meets exactly the nodes that paths lead to, under these paths. -/
theorem mem_entriesFrom_iff (base : List Position) :
    (path, m) ∈ entriesFrom base n ↔ ∃ below, path = base ++ below ∧ n.Leads below m := by
  induction n using Node.induct generalizing base path with
  | leaf label value =>
      rw [entriesFrom, List.mem_singleton, Prod.mk.injEq]
      simp only [leads_leaf]
      constructor
      · rintro ⟨rfl, rfl⟩
        exact ⟨[], by simp⟩
      · rintro ⟨_, rfl, rfl, rfl⟩
        simp
  | array label items ih =>
      rw [entriesFrom, List.mem_cons,
        mem_itemEntriesFrom_iff fun item hitem base path => ih item hitem base, Prod.mk.injEq]
      simp only [leads_array, Nat.zero_add]
      constructor
      · rintro (⟨rfl, rfl⟩ | ⟨index, item, below, hitem, rfl, h⟩)
        · exact ⟨[], by simp⟩
        · exact ⟨_, rfl, .inr ⟨index, item, below, hitem, rfl, h⟩⟩
      · rintro ⟨_, rfl, ⟨rfl, rfl⟩ | ⟨index, item, below, hitem, rfl, h⟩⟩
        · exact .inl (by simp)
        · exact .inr ⟨index, item, below, hitem, rfl, h⟩
  | object label members ih =>
      rw [entriesFrom, List.mem_cons,
        mem_memberEntriesFrom_iff fun entry hentry base path => ih entry hentry base,
        Prod.mk.injEq]
      simp only [leads_object]
      constructor
      · rintro (⟨rfl, rfl⟩ | ⟨key, child, below, hchild, rfl, h⟩)
        · exact ⟨[], by simp⟩
        · exact ⟨_, rfl, .inr ⟨key, child, below, hchild, rfl, h⟩⟩
      · rintro ⟨_, rfl, ⟨rfl, rfl⟩ | ⟨key, child, below, hchild, rfl, h⟩⟩
        · exact .inl (by simp)
        · exact .inr ⟨key, child, below, hchild, rfl, h⟩

/-- The entries of a tree are the nodes that paths lead to from its root. -/
theorem mem_entries_iff :
    (path, m) ∈ n.entries ↔ ∃ below, path = .root :: below ∧ n.Leads below m :=
  mem_entriesFrom_iff [.root]

end Node

end LayeredConfig
