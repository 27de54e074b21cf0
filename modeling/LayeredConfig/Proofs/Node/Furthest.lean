import Mathlib.Tactic.SplitIfs
import LayeredConfig.Node.Literal
import LayeredConfig.Node.Navigation

/-!
# How far a path leads

A path is followed as long as the node that has been reached holds a child for the next segment.
`n.Furthest segments passed left m` says that the walk down from `n` comes as far as `m`: over the
segments `passed`, with `left` before it. The main statement, `property_ends_at_furthest`, says what
is found there. A walk that ends because the path ends can be taken up again; one that a container
ends stays at it, whatever else is asked for, and one that runs into a leaf finds nothing.
-/

namespace LayeredConfig

namespace Node

/-- A container holds a child for a segment: an object under the key that the segment is, an array
at the index that it reads as. -/
inductive Holds : Node → String → Node → Prop
  | key {label : Label} {members : List (String × Node)} {segment : String} {child : Node} :
      Members.get? segment members = some child → Holds (.object label members) segment child
  | index {label : Label} {items : List Node} {segment : String} {i : Nat} {child : Node} :
      unsigned64? segment.toList = some i → items[i]? = some child →
        Holds (.array label items) segment child

/-- Every node on the way holds a child for its segment. -/
inductive Passes : Node → List String → Node → Prop
  | here (n : Node) : Passes n [] n
  | step {n child m : Node} {segment : String} {rest : List String} :
      n.Holds segment child → Passes child rest m → Passes n (segment :: rest) m

/-- A path without its empty segments. -/
def named (segments : List String) : List String := segments.filter (· ≠ "")

/-- The longest start of a path that can be passed leads to `m`. -/
structure Furthest (n : Node) (segments passed left : List String) (m : Node) : Prop where
  named_eq : named segments = passed ++ left
  passes : n.Passes passed m
  longest : ∀ further rest end', named segments = further ++ rest → n.Passes further end' →
    further.length ≤ passed.length

variable {n m child : Node} {segment : String} {segments passed left rest : List String}

/-! ### Children -/

theorem child?_eq_some_iff : n.child? segment = some child ↔ n.Holds segment child := by
  constructor
  · intro h
    cases n with
    | leaf label value => cases h
    | array label items =>
        obtain ⟨i, hi, hitem⟩ := Option.bind_eq_some_iff.1 h
        exact .index hi hitem
    | object label members => exact .key h
  · intro h
    cases h with
    | key h => exact h
    | index hi hitem => exact Option.bind_eq_some_iff.2 ⟨_, hi, hitem⟩

theorem Holds.unique {other : Node} (h : n.Holds segment child) (h' : n.Holds segment other) :
    child = other :=
  Option.some.inj ((child?_eq_some_iff.2 h).symm.trans (child?_eq_some_iff.2 h'))

/-! ### One segment -/

@[simp] theorem property_cons_empty (n : Node) (rest : List String) :
    n.property ("" :: rest) = n.property rest := by
  cases n <;> simp [property]

theorem property_cons_of_holds (hne : segment ≠ "") (h : n.Holds segment child) :
    n.property (segment :: rest) = child.property rest := by
  have hchild := child?_eq_some_iff.2 h
  cases n with
  | leaf label value => cases h
  | _ => simp [property, hne, hchild]

/-- Without a child for the segment, the walk is over. -/
theorem property_cons_of_not_holds (hne : segment ≠ "") (h : ∀ child, ¬ n.Holds segment child) :
    n.property (segment :: rest) = if n.shape = .leaf then none else some n := by
  have hchild : n.child? segment = none :=
    Option.eq_none_iff_forall_ne_some.2 fun child hchild => h child (child?_eq_some_iff.1 hchild)
  cases n <;> simp [property, hne, hchild, shape]

/-! ### Whole paths -/

theorem named_append (p q : List String) : named (p ++ q) = named p ++ named q :=
  List.filter_append ..

theorem ne_empty_of_mem_named (h : segment ∈ named segments) : segment ≠ "" := by
  simpa using (List.mem_filter.1 h).2

/-- Empty segments make no difference. -/
theorem property_named (n : Node) (segments : List String) :
    n.property (named segments) = n.property segments := by
  induction segments generalizing n with
  | nil => rfl
  | cons first rest ih =>
      by_cases hfirst : first = ""
      · subst hfirst
        rw [property_cons_empty, ← ih]
        rfl
      · have hnamed : named (first :: rest) = first :: named rest :=
          List.filter_cons_of_pos (decide_eq_true hfirst)
        rw [hnamed]
        by_cases hholds : ∃ child, n.Holds first child
        · obtain ⟨child, hchild⟩ := hholds
          rw [property_cons_of_holds hfirst hchild, property_cons_of_holds hfirst hchild, ih]
        · rw [not_exists] at hholds
          rw [property_cons_of_not_holds hfirst hholds, property_cons_of_not_holds hfirst hholds]

/-- Once segments are passed, the rest of the path is looked up below. -/
theorem Passes.property_append (h : n.Passes passed m) (hne : ∀ s ∈ passed, s ≠ "")
    (rest : List String) : n.property (passed ++ rest) = m.property rest := by
  induction h with
  | here n => rfl
  | step hholds _ ih =>
      obtain ⟨hfirst, hothers⟩ := List.forall_mem_cons.1 hne
      rw [List.cons_append, property_cons_of_holds hfirst hholds, ih hothers]

/-! ### The furthest node -/

/-- Where the next segment is not held, no longer start of the path can be passed. -/
theorem Passes.length_le (h : n.Passes passed m)
    (hleft : ∀ first others, left = first :: others → ∀ child, ¬ m.Holds first child)
    {further : List String} {end' : Node} (hsplit : passed ++ left = further ++ rest)
    (hfurther : n.Passes further end') : further.length ≤ passed.length := by
  induction h generalizing further with
  | here n =>
      cases hfurther with
      | here => exact Nat.le_refl 0
      | step hholds _ => exact absurd hholds (hleft _ _ hsplit _)
  | step hholds _ ih =>
      cases hfurther with
      | here => exact Nat.zero_le _
      | step hholds' hpasses =>
          obtain ⟨rfl, htail⟩ := List.cons.inj hsplit
          obtain rfl := hholds.unique hholds'
          exact Nat.succ_le_succ (ih hleft htail hpasses)

theorem Passes.furthest (h : n.Passes passed m) (hnamed : named segments = passed ++ left)
    (hleft : ∀ first others, left = first :: others → ∀ child, ¬ m.Holds first child) :
    n.Furthest segments passed left m :=
  ⟨hnamed, h, fun _ _ _ hsplit hfurther => h.length_le hleft (hnamed.symm.trans hsplit) hfurther⟩

theorem exists_passes (n : Node) (segments : List String) :
    ∃ passed left m, segments = passed ++ left ∧ n.Passes passed m ∧
      ∀ first others, left = first :: others → ∀ child, ¬ m.Holds first child := by
  induction segments generalizing n with
  | nil => exact ⟨[], [], n, rfl, .here n, nofun⟩
  | cons first rest ih =>
      by_cases hholds : ∃ child, n.Holds first child
      · obtain ⟨child, hchild⟩ := hholds
        obtain ⟨passed, left, m, rfl, hpasses, hleft⟩ := ih child
        exact ⟨first :: passed, left, m, rfl, .step hchild hpasses, hleft⟩
      · rw [not_exists] at hholds
        refine ⟨[], first :: rest, n, rfl, .here n, ?_⟩
        rintro _ _ ⟨⟩
        exact hholds

theorem exists_furthest (n : Node) (segments : List String) :
    ∃ passed left m, n.Furthest segments passed left m := by
  obtain ⟨passed, left, m, hnamed, hpasses, hleft⟩ := exists_passes n (named segments)
  exact ⟨passed, left, m, hpasses.furthest hnamed hleft⟩

theorem Passes.append_singleton (h : n.Passes passed m) (hholds : m.Holds segment child) :
    n.Passes (passed ++ [segment]) child := by
  induction h with
  | here n => exact .step hholds (.here child)
  | step hfirst _ ih => exact .step hfirst (ih hholds)

/-- The furthest node holds no child for the segment that comes next. -/
theorem Furthest.not_holds (h : n.Furthest segments passed (segment :: left) m) (child : Node) :
    ¬ m.Holds segment child := by
  intro hholds
  have hfurther := h.passes.append_singleton hholds
  have hlength := h.longest (passed ++ [segment]) left child (by simp [h.named_eq]) hfurther
  rw [List.length_append] at hlength
  exact Nat.not_succ_le_self _ hlength

/-- A walk that ended with its path goes on with what is added to the path. One that ended before
its path does not. -/
theorem Furthest.property_append (h : n.Furthest segments passed left m) (more : List String) :
    n.property (segments ++ more) =
      if left = [] then m.property more else if m.shape = .leaf then none else some m := by
  have hne : ∀ segment ∈ passed ++ left, segment ≠ "" := fun segment hsegment =>
    ne_empty_of_mem_named (h.named_eq.symm ▸ hsegment)
  obtain ⟨hpassed, hleft⟩ := List.forall_mem_append.1 hne
  rw [← property_named, named_append, h.named_eq, List.append_assoc,
    h.passes.property_append hpassed]
  cases left with
  | nil => rw [List.nil_append, property_named, if_pos rfl]
  | cons next others =>
      rw [List.cons_append, property_cons_of_not_holds (hleft next List.mem_cons_self) h.not_holds,
        if_neg (List.cons_ne_nil next others)]

theorem Furthest.property_eq (h : n.Furthest segments passed left m) :
    n.property segments =
      if left = [] then some m else if m.shape = .leaf then none else some m := by
  simpa using h.property_append []

/-- A path leads to the furthest node that a start of it reaches. That node is found unless it is a
leaf with segments left, which gives nothing. So a path that ends at its furthest node can be taken
up from there; a path that a container ends finds this container, whatever is added to it; and what
is added to a path that finds nothing does not help it. -/
theorem property_ends_at_furthest (n : Node) (segments : List String) :
    (∃ passed left m, n.Furthest segments passed left m) ∧
    (∀ passed left m, n.Furthest segments passed left m →
      (n.property segments = some m ↔ left = [] ∨ m.shape ≠ .leaf) ∧
      (n.property segments = none ↔ m.shape = .leaf ∧ left ≠ []) ∧
      (left = [] → ∀ more, n.property (segments ++ more) = m.property more) ∧
      (left ≠ [] → m.shape ≠ .leaf →
        ∀ more, n.property (segments ++ more) = n.property segments)) ∧
    (n.property segments = none → ∀ more, n.property (segments ++ more) = none) := by
  refine ⟨exists_furthest n segments, fun passed left m h => ⟨?_, ?_, ?_, ?_⟩, fun hnone more => ?_⟩
  · rw [h.property_eq]
    split_ifs with hleft hshape <;> simp [*]
  · rw [h.property_eq]
    split_ifs with hleft hshape <;> simp [*]
  · intro hleft more
    rw [h.property_append, if_pos hleft]
  · intro hleft hshape more
    rw [h.property_append, h.property_eq, if_neg hleft, if_neg hleft, if_neg hshape]
  · obtain ⟨passed, left, m, h⟩ := exists_furthest n segments
    rw [h.property_eq] at hnone
    rw [h.property_append]
    split_ifs at hnone ⊢ with hleft hshape
    rfl

/-- An object with an array of two ports. -/
def portsTree : Node :=
  literal (.literal 0 .null) .empty
    (.object [("web", .object [("ports", .array [.ofInt 80, .ofInt 443])])])

/-- There are two ports: the index `02` ends the walk at the array, and `01` leads into a leaf. -/
theorem property_ends_at_furthest_portsTree :
    (∃ ports,
      portsTree.Furthest ["web", "", "ports", "02", "x"] ["web", "ports"] ["02", "x"] ports ∧
      ports.toJson = .array [.ofInt 80, .ofInt 443] ∧
      portsTree.property ["web", "", "ports", "02", "x"] = some ports ∧
      portsTree.property (["web", "", "ports", "02", "x"] ++ ["0"]) = some ports ∧
      portsTree.Furthest ["web", "ports", ""] ["web", "ports"] [] ports ∧
      portsTree.property (["web", "ports", ""] ++ ["+1"]) = ports.property ["+1"]) ∧
    portsTree.property ["web", "ports", "01", "x"] = none ∧
    portsTree.property (["web", "ports", "01", "x"] ++ ["y"]) = none := by
  obtain ⟨ports, hpasses, hchild, hshape, hvalue⟩ : ∃ ports,
      portsTree.Passes ["web", "ports"] ports ∧ ports.child? "02" = none ∧ ports.shape = .array ∧
        ports.toJson = .array [.ofInt 80, .ofInt 443] :=
    ⟨_, .step (.key rfl) (.step (.key rfl) (.here _)), rfl, rfl, rfl⟩
  have hleaf : ports.shape ≠ .leaf := by simp [hshape]
  have hstuck :
      portsTree.Furthest ["web", "", "ports", "02", "x"] ["web", "ports"] ["02", "x"] ports := by
    refine hpasses.furthest rfl ?_
    rintro _ _ ⟨⟩ child hholds
    rw [child?_eq_some_iff.2 hholds] at hchild
    cases hchild
  have hended : portsTree.Furthest ["web", "ports", ""] ["web", "ports"] [] ports :=
    hpasses.furthest rfl nofun
  obtain ⟨-, hends, -⟩ := property_ends_at_furthest portsTree ["web", "", "ports", "02", "x"]
  obtain ⟨hfound, -, -, hstays⟩ := hends _ _ _ hstuck
  obtain ⟨-, hends', -⟩ := property_ends_at_furthest portsTree ["web", "ports", ""]
  obtain ⟨-, -, hgoesOn, -⟩ := hends' _ _ _ hended
  have hports := hfound.2 (.inr hleaf)
  have hnone : portsTree.property ["web", "ports", "01", "x"] = none := rfl
  refine ⟨⟨ports, hstuck, hvalue, hports, ?_, hended, hgoesOn rfl ["+1"]⟩, hnone, ?_⟩
  · rw [hstays nofun hleaf, hports]
  · exact (property_ends_at_furthest portsTree ["web", "ports", "01", "x"]).2.2 hnone ["y"]

end Node

end LayeredConfig
