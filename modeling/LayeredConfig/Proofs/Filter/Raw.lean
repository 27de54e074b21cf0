import LayeredConfig.Node.Filter
import LayeredConfig.Proofs.Merge.Values

/-!
# Raw values of filtered trees

Filtering takes a rejected child off the raw value of the node that held it, and off no raw
value further up: each ancestor keeps its own copy of what was below it. The main statement is
`inStep_filterWhere_iff`, which says when the raw values of a filtered tree still are its values:
exactly when all that is rejected stands right below the root, or below something rejected.
-/

namespace LayeredConfig

namespace Json

/-- On distinct keys, removing several keys one after the other filters them out. -/
theorem foldl_erase {keys : List String} {members : Members Json} (h : members.Distinct) :
    keys.foldl (fun ms key => Members.erase key ms) members =
      members.filter fun entry => entry.1 ∉ keys := by
  induction keys generalizing members with
  | nil => exact (List.filter_eq_self.2 (by simp)).symm
  | cons key rest ih =>
      rw [List.foldl_cons, ih h.erase, Members.erase_eq_filter h, List.filter_filter]
      apply List.filter_congr
      intro entry _
      by_cases he : entry.1 = key <;> simp [he]

theorem map_fst_filter_zip {α β : Type} (f : α → β) (p : α → Bool) (xs : List α) :
    (((xs.map f).zip (xs.map p)).filter Prod.snd).map Prod.fst = (xs.filter p).map f := by
  induction xs with
  | nil => rfl
  | cons x rest ih =>
      cases hp : p x with
      | false => simpa [hp] using ih
      | true => simpa [hp] using ih

theorem maskItems_map {α : Type} (f : α → Json) (p : α → Bool) (xs : List α) :
    (array (xs.map f)).maskItems (xs.map p) = array ((xs.filter p).map f) := by
  simp only [maskItems, List.length_map, if_true]
  rw [map_fst_filter_zip]

/-- A mask that keeps everything changes nothing. -/
theorem maskItems_of_forall {v : Json} {keep : List Bool} (h : ∀ b ∈ keep, b = true) :
    v.maskItems keep = v := by
  cases v with
  | array items =>
      simp only [maskItems]
      split
      · next hlen =>
          have hall : (items.zip keep).filter Prod.snd = items.zip keep := by
            rw [List.filter_eq_self]
            exact fun pair hpair => h pair.2 (List.of_mem_zip hpair).2
          rw [hall, List.map_fst_zip (by omega)]
      · rfl
  | _ => rfl

theorem withoutKeys_nil (v : Json) : v.withoutKeys [] = v := by
  cases v <;> rfl

end Json

namespace Node

section

variable {keep : Node → Bool}

/-! ### What filtering keeps -/

theorem pruned_leaf (label : Label) (value : Json) :
    (leaf label value).pruned keep = .leaf label value := by rw [pruned]

theorem pruned_array (label : Label) (items : List Node) :
    (array label items).pruned keep =
      .array { label with raw := label.raw.maskItems (items.map keep) }
        ((items.filter keep).map (pruned keep)) := by
  have h : prunedItems keep items = (items.filter keep).map (pruned keep) := by
    induction items with
    | nil => simp [prunedItems]
    | cons item rest ih =>
        rw [prunedItems]
        cases hk : keep item <;> simp [hk, ih]
  rw [pruned, h]

theorem pruned_object (label : Label) (members : List (String × Node)) :
    (object label members).pruned keep =
      .object
        { label with
          raw := label.raw.withoutKeys
            ((members.filter fun entry => !keep entry.2).map Prod.fst) }
        (Members.mapValues (pruned keep) (members.filter fun entry => keep entry.2)) := by
  have h : prunedMembers keep members =
      Members.mapValues (pruned keep) (members.filter fun entry => keep entry.2) := by
    induction members with
    | nil => simp [prunedMembers]
    | cons entry rest ih =>
        obtain ⟨key, child⟩ := entry
        rw [prunedMembers]
        cases hk : keep child <;> simp [hk, ih]
  rw [pruned, h]

/-- Where nothing is rejected, nothing changes. -/
theorem pruned_eq_self {n : Node}
    (h : ∀ child ∈ n.children, child.Everywhere fun m => keep m = true) : n.pruned keep = n := by
  induction n using Node.induct with
  | leaf label value => exact pruned_leaf label value
  | array label items ih =>
      have hkept : items.filter keep = items := by
        rw [List.filter_eq_self]
        exact fun item hitem => (h item hitem).root
      have hitems : items.map (pruned keep) = items := by
        refine (List.map_congr_left fun item hitem => ?_).trans (List.map_id items)
        exact ih item hitem (everywhere_iff.1 (h item hitem)).2
      have hraw : label.raw.maskItems (items.map keep) = label.raw := by
        apply Json.maskItems_of_forall
        rw [List.forall_mem_map]
        exact fun item hitem => (h item hitem).root
      rw [pruned_array, hkept, hitems, hraw]
  | object label members ih =>
      rw [children, List.forall_mem_map] at h
      have hkept : (members.filter fun entry => keep entry.2) = members := by
        rw [List.filter_eq_self]
        exact fun entry hentry => (h entry hentry).root
      have hmembers : Members.mapValues (pruned keep) members = members := by
        refine (List.map_congr_left fun entry hentry => ?_).trans (List.map_id members)
        rw [ih entry hentry (everywhere_iff.1 (h entry hentry)).2]
        rfl
      have hrejected : (members.filter fun entry => !keep entry.2) = [] := by
        rw [List.filter_eq_nil_iff]
        intro entry hentry
        simp [(h entry hentry).root]
      rw [pruned_object, hkept, hmembers, hrejected, List.map_nil, Json.withoutKeys_nil]

/-- Filtering leaves the value of a tree alone exactly when nothing below the root is rejected. -/
theorem toJson_pruned_eq_iff {n : Node} :
    (n.pruned keep).toJson = n.toJson ↔
      ∀ child ∈ n.children, child.Everywhere fun m => keep m = true := by
  refine ⟨fun h => ?_, fun h => by rw [pruned_eq_self h]⟩
  induction n using Node.induct with
  | leaf label value => simp [children]
  | array label items ih =>
      rw [pruned_array, toJson_array, toJson_array, Json.array.injEq] at h
      -- No element is missing, so none was rejected.
      have hall : ∀ item ∈ items, keep item = true := by
        rw [← List.length_filter_eq_length_iff]
        simpa using congrArg List.length h
      rw [List.filter_eq_self.2 hall, List.map_map, List.map_inj_left] at h
      intro item hitem
      exact everywhere_iff.2 ⟨hall item hitem, ih item hitem (h item hitem)⟩
  | object label members ih =>
      rw [pruned_object, toJson_object, toJson_object, Json.object.injEq] at h
      have hall : ∀ entry ∈ members, keep entry.2 = true := by
        rw [← List.length_filter_eq_length_iff (p := fun entry : String × Node => keep entry.2)]
        simpa [Members.mapValues] using congrArg List.length h
      rw [List.filter_eq_self.2 hall, Members.mapValues, Members.mapValues, Members.mapValues,
        List.map_map, List.map_inj_left] at h
      rw [children, List.forall_mem_map]
      intro entry hentry
      have hvalue := congrArg Prod.snd (h entry hentry)
      exact everywhere_iff.2 ⟨hall entry hentry, ih entry hentry hvalue⟩

/-! ### The raw value of a node that is kept -/

/-- The children of a node that filtering keeps, with their keys left out. -/
theorem children_pruned (n : Node) :
    (n.pruned keep).children = (n.children.filter keep).map (pruned keep) := by
  cases n with
  | leaf label value => rw [pruned_leaf]; rfl
  | array label items => rw [pruned_array]; rfl
  | object label members =>
      rw [pruned_object]
      simp [children, Members.mapValues, List.filter_map, Function.comp_def]

/-- On distinct keys, a member is kept exactly when its key is not among the rejected ones. -/
theorem not_mem_rejected_keys {members : List (String × Node)} (hd : Members.Distinct members)
    {entry : String × Node} (hentry : entry ∈ members) :
    decide (entry.1 ∉ (members.filter fun other => !keep other.2).map Prod.fst) = keep entry.2 := by
  cases hk : keep entry.2 with
  | false =>
      have hmem : entry ∈ members.filter fun other => !keep other.2 :=
        List.mem_filter.2 ⟨hentry, by simp [hk]⟩
      exact decide_eq_false (not_not_intro (List.mem_map_of_mem hmem))
  | true =>
      apply decide_eq_true
      intro h
      obtain ⟨other, hother, heq⟩ := List.mem_map.1 h
      obtain ⟨hmem, hrejected⟩ := List.mem_filter.1 hother
      have hget := Members.get?_of_mem hd hentry
      rw [← heq, Members.get?_of_mem hd hmem, Option.some.injEq] at hget
      simp [hget, hk] at hrejected

theorem raw_pruned_object {label : Label} {members : List (String × Node)}
    (hd : Members.Distinct members)
    (hraw : label.raw = .object (Members.mapValues toJson members)) :
    ((object label members).pruned keep).raw =
      .object (Members.mapValues toJson (members.filter fun entry => keep entry.2)) := by
  have hpruned : ((object label members).pruned keep).raw = label.raw.withoutKeys
      ((members.filter fun entry => !keep entry.2).map Prod.fst) := by
    rw [pruned_object]
    rfl
  have hvalues := (Members.distinct_mapValues toJson).2 hd
  rw [hpruned, hraw, Json.withoutKeys, Json.foldl_erase hvalues, Members.mapValues,
    List.filter_map, Members.mapValues]
  congr 2
  apply List.filter_congr
  intro entry hentry
  exact not_mem_rejected_keys hd hentry

theorem raw_pruned_array {label : Label} {items : List Node}
    (hraw : label.raw = .array (items.map toJson)) :
    ((array label items).pruned keep).raw = .array ((items.filter keep).map toJson) := by
  have hpruned : ((array label items).pruned keep).raw = label.raw.maskItems (items.map keep) := by
    rw [pruned_array]
    rfl
  rw [hpruned, hraw, Json.maskItems_map]

/-- A node that filtering keeps has its value as its raw value exactly when no child that is
kept has lost anything. -/
theorem raw_pruned_eq_toJson_iff {n : Node} (hd : n.KeysDistinct) (hraw : n.raw = n.toJson) :
    (n.pruned keep).raw = (n.pruned keep).toJson ↔
      ∀ child ∈ n.children, keep child = true → (child.pruned keep).toJson = child.toJson := by
  cases n with
  | leaf label value =>
      rw [pruned_leaf, children]
      exact iff_of_true hraw (by simp)
  | array label items =>
      have hlabel : label.raw = .array (items.map toJson) := hraw.trans (toJson_array label items)
      refine eq_comm.trans ?_
      rw [raw_pruned_array hlabel, pruned_array, toJson_array, Json.array.injEq, List.map_map,
        List.map_inj_left, children]
      simp
  | object label members =>
      have hlabel : label.raw = .object (Members.mapValues toJson members) :=
        hraw.trans (toJson_object label members)
      refine eq_comm.trans ?_
      rw [raw_pruned_object (keysDistinct_object.1 hd).1 hlabel, children, List.forall_mem_map]
      rw [pruned_object, toJson_object, Json.object.injEq, Members.mapValues, Members.mapValues,
        Members.mapValues, List.map_map, List.map_inj_left]
      simp

/-- A filtered tree is in step exactly when every child of the root that is kept consists of
accepted nodes alone. -/
theorem inStep_pruned_iff {n : Node} (hd : n.KeysDistinct) (hs : n.InStep) :
    (n.pruned keep).InStep ↔
      ∀ child ∈ n.children, keep child = true → child.Everywhere fun m => keep m = true := by
  have hroot : (n.pruned keep).raw = (n.pruned keep).toJson ↔ _ :=
    raw_pruned_eq_toJson_iff hd hs.root
  have hchildren := (everywhere_iff.1 hs).2
  constructor
  · intro h child hchild hkeep
    have hvalue := hroot.1 h.root child hchild hkeep
    exact everywhere_iff.2 ⟨hkeep, toJson_pruned_eq_iff.1 hvalue⟩
  · intro h
    have hself : ∀ child ∈ n.children, keep child = true → child.pruned keep = child :=
      fun child hchild hkeep => pruned_eq_self (everywhere_iff.1 (h child hchild hkeep)).2
    refine everywhere_iff.2 ⟨hroot.2 fun child hchild hkeep => ?_, fun child hchild => ?_⟩
    · rw [hself child hchild hkeep]
    · rw [children_pruned] at hchild
      obtain ⟨original, horiginal, rfl⟩ := List.mem_map.1 hchild
      obtain ⟨hmem, hkeep⟩ := List.mem_filter.1 horiginal
      rw [hself original hmem hkeep]
      exact hchildren original hmem

end

/-- When filtering leaves raw values in step: a tree in step whose root is accepted always
filters, and the raw value of every node that is left is its value exactly when every child of
the root that is kept consists of accepted nodes alone. Whatever is rejected further down stays
in the raw value of the root. -/
theorem inStep_filterWhere_iff (keep : Node → Bool) {n : Node} (hd : n.KeysDistinct)
    (hs : n.InStep) (hroot : keep n = true) :
    ∃ filtered, n.filterWhere keep = .ok filtered ∧
      (filtered.InStep ↔
        ∀ child ∈ n.children, keep child = true → child.Everywhere fun m => keep m = true) :=
  ⟨n.pruned keep, by rw [filterWhere, if_pos hroot], inStep_pruned_iff hd hs⟩

/-- Credentials with a password right below the root. -/
def flatCredentials : Node :=
  literal (.literal 0 .null) .empty
    (.object [("password", .string "secret"), ("user", .object [("name", .string "u")])])

/-- Credentials with the password one level further down. -/
def nestedCredentials : Node :=
  literal (.literal 0 .null) .empty
    (.object [("db", .object [("password", .string "secret"), ("user", .string "u")])])

/-- Whether a node holds anything but the password. -/
def notSecret (n : Node) : Bool := n.toJson ≠ .string "secret"

theorem inStep_filterWhere_flat :
    flatCredentials.KeysDistinct ∧ flatCredentials.InStep ∧ notSecret flatCredentials = true ∧
    ∃ filtered, flatCredentials.filterWhere notSecret = .ok filtered ∧ filtered.InStep := by
  have hd : flatCredentials.KeysDistinct := by decide
  have hs : flatCredentials.InStep := inStep_literal _ _ _
  obtain ⟨filtered, hok, hiff⟩ := inStep_filterWhere_iff notSecret hd hs (by decide)
  exact ⟨hd, hs, by decide, filtered, hok, hiff.2 (by decide)⟩

/-- Filtering the password out of nested credentials leaves it in the raw value of the root. -/
theorem filterWhere_nested_leaks :
    nestedCredentials.KeysDistinct ∧ nestedCredentials.InStep ∧
      notSecret nestedCredentials = true ∧
      ∃ filtered, nestedCredentials.filterWhere notSecret = .ok filtered ∧
        filtered.toJson = .object [("db", .object [("user", .string "u")])] ∧
        filtered.raw = .object
          [("db", .object [("password", .string "secret"), ("user", .string "u")])] ∧
        ¬ filtered.InStep :=
  ⟨by decide, inStep_literal _ _ _, by decide, _, rfl, by decide, by decide, by decide⟩

end Node

end LayeredConfig
