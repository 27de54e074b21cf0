import LayeredConfig.Proofs.Merge.Values
import LayeredConfig.Proofs.Metadata.Combining
import LayeredConfig.Proofs.Node.Labels
import LayeredConfig.Proofs.ObjectStep.Reference

/-!
# Forgetting metadata

`Node.forget keys` takes every entry under one of the keys off the metadata of every node and leaves
the rest of the tree as it is: `a.forget keys = b.forget keys` says that two trees agree in shape,
keys, values, raw values and sources, and in all metadata under other keys. Whatever combines
metadata does so key by key, so forgetting can come before or after it: for merging
(`Node.forget_merge`) and, as long as no instruction is forgotten, for putting an object together
(`ObjectStep.result_run_forget`).
-/

namespace LayeredConfig

namespace Members

variable {α β : Type} (keys : List String)

/-- The entries under other keys. -/
def without (ms : Members α) : Members α := ms.filter fun entry => entry.1 ∉ keys

variable {keys}

theorem without_cons_of_mem {entry : String × α} {rest : Members α} (h : entry.1 ∈ keys) :
    without keys (entry :: rest) = without keys rest :=
  List.filter_cons_of_neg (by simpa using h)

theorem without_cons_of_not_mem {entry : String × α} {rest : Members α} (h : entry.1 ∉ keys) :
    without keys (entry :: rest) = entry :: without keys rest :=
  List.filter_cons_of_pos (by simpa using h)

theorem get?_without {key : String} (h : key ∉ keys) (ms : Members α) :
    get? key (without keys ms) = get? key ms :=
  get?_filter (p := fun k => k ∉ keys) (decide_eq_true h) ms

theorem without_insert_of_mem {key : String} (h : key ∈ keys) (v : α) (ms : Members α) :
    without keys (insert key v ms) = without keys ms := by
  induction ms with
  | nil => exact without_cons_of_mem h
  | cons entry rest ih =>
      obtain ⟨k, w⟩ := entry
      by_cases hk : k = key
      · subst hk
        rw [insert, if_pos rfl, without_cons_of_mem h, without_cons_of_mem h]
      · rw [insert, if_neg hk]
        by_cases hmem : k ∈ keys
        · rw [without_cons_of_mem hmem, without_cons_of_mem hmem, ih]
        · rw [without_cons_of_not_mem hmem, without_cons_of_not_mem hmem, ih]

theorem without_insert_of_not_mem {key : String} (h : key ∉ keys) (v : α) (ms : Members α) :
    without keys (insert key v ms) = insert key v (without keys ms) := by
  induction ms with
  | nil => exact without_cons_of_not_mem h
  | cons entry rest ih =>
      obtain ⟨k, w⟩ := entry
      by_cases hk : k = key
      · subst hk
        rw [insert, if_pos rfl, without_cons_of_not_mem h, without_cons_of_not_mem h, insert,
          if_pos rfl]
      · rw [insert, if_neg hk]
        by_cases hmem : k ∈ keys
        · rw [without_cons_of_mem hmem, without_cons_of_mem hmem, ih]
        · rw [without_cons_of_not_mem hmem, without_cons_of_not_mem hmem, ih, insert, if_neg hk]

theorem without_extend (base upper : Members α) :
    without keys (extend base upper) = extend (without keys base) (without keys upper) := by
  induction upper generalizing base with
  | nil => rfl
  | cons entry rest ih =>
      change without keys (extend (insert entry.1 entry.2 base) rest) = _
      rw [ih]
      by_cases hmem : entry.1 ∈ keys
      · rw [without_cons_of_mem hmem, without_insert_of_mem hmem]
      · rw [without_cons_of_not_mem hmem, without_insert_of_not_mem hmem]
        rfl

theorem without_erase_of_mem {key : String} (h : key ∈ keys) (ms : Members α) :
    without keys (erase key ms) = without keys ms := by
  induction ms with
  | nil => rfl
  | cons entry rest ih =>
      obtain ⟨k, v⟩ := entry
      by_cases hk : k = key
      · subst hk
        rw [erase, if_pos rfl, without_cons_of_mem h]
      · rw [erase, if_neg hk]
        by_cases hmem : k ∈ keys
        · rw [without_cons_of_mem hmem, without_cons_of_mem hmem, ih]
        · rw [without_cons_of_not_mem hmem, without_cons_of_not_mem hmem, ih]

theorem without_erase_of_not_mem {key : String} (h : key ∉ keys) (ms : Members α) :
    without keys (erase key ms) = erase key (without keys ms) := by
  induction ms with
  | nil => rfl
  | cons entry rest ih =>
      obtain ⟨k, v⟩ := entry
      by_cases hk : k = key
      · subst hk
        rw [erase, if_pos rfl, without_cons_of_not_mem h, erase, if_pos rfl]
      · rw [erase, if_neg hk]
        by_cases hmem : k ∈ keys
        · rw [without_cons_of_mem hmem, without_cons_of_mem hmem, ih]
        · rw [without_cons_of_not_mem hmem, without_cons_of_not_mem hmem, ih, erase, if_neg hk]

theorem mapValues_erase (f : α → β) (key : String) (ms : Members α) :
    mapValues f (erase key ms) = erase key (mapValues f ms) := by
  induction ms with
  | nil => rfl
  | cons entry rest ih =>
      obtain ⟨k, v⟩ := entry
      by_cases h : k = key
      · simp [erase, h]
      · simp [erase, h, ih]

end Members

namespace Json

theorem without_overlayMembers {keys : List String} (members upper : List (String × Json)) :
    Members.without keys (overlayMembers members upper) =
      overlayMembers (Members.without keys members) (Members.without keys upper) := by
  induction upper generalizing members with
  | nil => rw [overlayMembers_nil, Members.without, Members.without, List.filter_nil,
      overlayMembers_nil]
  | cons entry rest ih =>
      obtain ⟨key, value⟩ := entry
      rw [overlayMembers, ih]
      by_cases hmem : key ∈ keys
      · rw [Members.without_cons_of_mem hmem, Members.without_insert_of_mem hmem]
      · rw [Members.without_cons_of_not_mem hmem, Members.without_insert_of_not_mem hmem,
          overlayMembers, Members.get?_without hmem]

end Json

namespace Metadata

variable {keys : List String}

/-- Metadata without what stands under the keys. -/
def forget (keys : List String) (m : Metadata) : Metadata := ⟨m.entries.without keys⟩

theorem forget_extended (m upper : Metadata) :
    (m.extended upper).forget keys = (m.forget keys).extended (upper.forget keys) :=
  congrArg mk (Members.without_extend m.entries upper.entries)

theorem forget_merged (lower upper : Metadata) :
    (lower.merged upper).forget keys = (lower.forget keys).merged (upper.forget keys) :=
  congrArg mk (Json.without_overlayMembers lower.entries upper.entries)

theorem forget_erase_of_mem {key : String} (h : key ∈ keys) (m : Metadata) :
    (m.erase key).forget keys = m.forget keys :=
  congrArg mk (Members.without_erase_of_mem h m.entries)

theorem forget_erase_of_not_mem {key : String} (h : key ∉ keys) (m : Metadata) :
    (m.erase key).forget keys = (m.forget keys).erase key :=
  congrArg mk (Members.without_erase_of_not_mem h m.entries)

theorem get?_forget {key : String} (h : key ∉ keys) (m : Metadata) :
    (m.forget keys).get? key = m.get? key :=
  Members.get?_without h m.entries

/-- Metadata that is laid over other metadata and then forgotten leaves nothing behind. -/
theorem forget_extended_self (m upper : Metadata) :
    (m.extended upper).forget upper.entries.keys = m.forget upper.entries.keys := by
  have hnone : upper.forget upper.entries.keys = empty := by
    refine congrArg mk (List.filter_eq_nil_iff.2 fun entry hentry => ?_)
    simpa using Members.mem_keys_of_mem hentry
  rw [forget_extended, hnone, extended_empty]

theorem forget_withoutInstructions (h : ∀ key ∈ keys, key ∉ instructions) (m : Metadata) :
    m.withoutInstructions.forget keys = (m.forget keys).withoutInstructions := by
  have hfold : ∀ removed : List String, (∀ key ∈ removed, key ∉ keys) → ∀ m : Metadata,
      (removed.foldl erase m).forget keys = removed.foldl erase (m.forget keys) := by
    intro removed hremoved
    induction removed with
    | nil => exact fun m => rfl
    | cons first rest ih =>
        obtain ⟨hfirst, hrest⟩ := List.forall_mem_cons.1 hremoved
        intro m
        rw [List.foldl_cons, List.foldl_cons, ih hrest, forget_erase_of_not_mem hfirst]
  exact hfold instructions (fun key hkey hmem => h key hmem hkey) m

end Metadata

/-! ### Trees -/

/-- A label without what stands under the keys in its metadata. -/
def Label.forget (keys : List String) (label : Label) : Label :=
  { label with metadata := label.metadata.forget keys }

namespace Node

variable {keys : List String}

/-- The tree without what stands under the keys in the metadata of its nodes. -/
def forget (keys : List String) (n : Node) : Node := n.mapLabels (Label.forget keys)

theorem forget_array (label : Label) (items : List Node) :
    (array label items).forget keys = .array (label.forget keys) (items.map (forget keys)) :=
  mapLabels_array _ _ _

theorem forget_object (label : Label) (members : List (String × Node)) :
    (object label members).forget keys =
      .object (label.forget keys) (Members.mapValues (forget keys) members) :=
  mapLabels_object _ _ _

theorem forget_leaf (label : Label) (value : Json) :
    (leaf label value).forget keys = .leaf (label.forget keys) value :=
  mapLabels_leaf _ _ _

@[simp] theorem metadata_forget (n : Node) : (n.forget keys).metadata = n.metadata.forget keys := by
  cases n with
  | leaf label value => rw [forget_leaf]; rfl
  | array label items => rw [forget_array]; rfl
  | object label members => rw [forget_object]; rfl

@[simp] theorem isObject_forget (n : Node) : (n.forget keys).isObject = n.isObject := by
  cases n with
  | leaf label value => rw [forget_leaf]; rfl
  | array label items => rw [forget_array]; rfl
  | object label members => rw [forget_object]; rfl

theorem forget_withMetadata (n : Node) (metadata : Metadata) :
    (n.withMetadata metadata).forget keys =
      (n.forget keys).withMetadata (metadata.forget keys) := by
  cases n with
  | leaf label value => rw [forget_leaf]; exact forget_leaf _ _
  | array label items => rw [forget_array]; exact forget_array _ _
  | object label members => rw [forget_object]; exact forget_object _ _

theorem forget_addMetadata (n : Node) (upper : Metadata) :
    (n.addMetadata upper).forget keys = (n.forget keys).addMetadata (upper.forget keys) := by
  rw [addMetadata, forget_withMetadata, Metadata.forget_extended, addMetadata, metadata_forget]

theorem forget_dropMetadata_of_mem {key : String} (h : key ∈ keys) (n : Node) :
    (n.dropMetadata key).forget keys = n.forget keys := by
  rw [dropMetadata, forget_withMetadata, Metadata.forget_erase_of_mem h, ← metadata_forget]
  cases n with
  | leaf label value => rw [forget_leaf]; rfl
  | array label items => rw [forget_array]; rfl
  | object label members => rw [forget_object]; rfl

theorem forget_dropMetadata_of_not_mem {key : String} (h : key ∉ keys) (n : Node) :
    (n.dropMetadata key).forget keys = (n.forget keys).dropMetadata key := by
  rw [dropMetadata, forget_withMetadata, Metadata.forget_erase_of_not_mem h, dropMetadata,
    metadata_forget]

theorem forget_withoutInstructions (h : ∀ key ∈ keys, key ∉ Metadata.instructions) (n : Node) :
    n.withoutInstructions.forget keys = (n.forget keys).withoutInstructions := by
  rw [withoutInstructions, forget_withMetadata, Metadata.forget_withoutInstructions h,
    withoutInstructions, metadata_forget]

/-- Members are matched by their keys, which nothing forgets. -/
theorem mapValues_forget_mergeMembers {members others : List (String × Node)}
    (h : ∀ entry ∈ members, ∀ other,
      (merge entry.2 other).forget keys = merge (entry.2.forget keys) (other.forget keys)) :
    Members.mapValues (forget keys) (mergeMembers members others) =
      mergeMembers (Members.mapValues (forget keys) members)
        (Members.mapValues (forget keys) others) := by
  induction members generalizing others with
  | nil => rw [mergeMembers, Members.mapValues_nil, mergeMembers]
  | cons first rest ih =>
      obtain ⟨key, child⟩ := first
      obtain ⟨hfirst, hrest⟩ := List.forall_mem_cons.1 h
      rw [mergeMembers, Members.mapValues_cons, mergeMembers, Members.get?_mapValues]
      cases Members.get? key others with
      | none =>
          simp only [Option.map_none, Members.mapValues_cons]
          rw [ih hrest]
      | some other =>
          simp only [Option.map_some, Members.mapValues_cons]
          rw [ih hrest, Members.mapValues_erase, hfirst]

theorem forget_merge (a b : Node) :
    (merge a b).forget keys = merge (a.forget keys) (b.forget keys) := by
  have hnot : ∀ a b : Node, (a.isObject && b.isObject) = false →
      (merge a b).forget keys = merge (a.forget keys) (b.forget keys) := by
    intro a b h
    have h' : ((a.forget keys).isObject && (b.forget keys).isObject) = false := by
      rwa [isObject_forget, isObject_forget]
    rw [merge_of_not_object h, merge_of_not_object h', forget_withMetadata, Metadata.forget_merged,
      metadata_forget, metadata_forget]
  induction a using Node.induct generalizing b with
  | leaf label value => exact hnot _ b rfl
  | array label items ih => exact hnot _ b rfl
  | object label members ih =>
      cases hobj : (object label members).isObject && b.isObject with
      | false => exact hnot _ b hobj
      | true =>
          obtain ⟨_, _, label', others, heq, rfl⟩ := exists_objects hobj
          cases heq
          rw [merge_object, forget_object, forget_object, forget_object, merge_object,
            mapValues_forget_mergeMembers ih]
          simp only [Label.forget, Metadata.forget_merged]

theorem forget_mergeAll (layers : List Node) :
    (mergeAll layers).map (forget keys) = mergeAll (layers.map (forget keys)) := by
  cases layers with
  | nil => rfl
  | cons first rest =>
      rw [List.map_cons, mergeAll, mergeAll, List.foldl_map, Option.map_some]
      exact congrArg some
        (List.foldl_hom (forget keys) fun lower item => (forget_merge lower item).symm).symm

/-- The trees are the same but for what stands under the keys in the metadata of their nodes. -/
def SameBut (keys : List String) (a b : Node) : Prop := a.forget keys = b.forget keys

theorem SameBut.addMetadata {a b : Node} (h : SameBut keys a b) (upper : Metadata) :
    SameBut keys (a.addMetadata upper) (b.addMetadata upper) := by
  rw [SameBut, forget_addMetadata, h, forget_addMetadata]

theorem SameBut.dropMetadata {a b : Node} (h : SameBut keys a b) (key : String) :
    SameBut keys (a.dropMetadata key) (b.dropMetadata key) := by
  by_cases hmem : key ∈ keys
  · rw [SameBut, forget_dropMetadata_of_mem hmem, h, forget_dropMetadata_of_mem hmem]
  · rw [SameBut, forget_dropMetadata_of_not_mem hmem, h, forget_dropMetadata_of_not_mem hmem]

end Node

/-! ### Objects -/

namespace ObjectStep

variable {keys : List String} (hplain : ∀ key ∈ keys, key ∉ Metadata.instructions)
include hplain

/-- No request is forgotten. -/
theorem requestOf_forget (metadata : Metadata) :
    requestOf (metadata.forget keys) = requestOf metadata := by
  have hget : ∀ key ∈ Metadata.instructions, (metadata.forget keys).get? key = metadata.get? key :=
    fun key hkey => Metadata.get?_forget (fun hmem => hplain key hmem hkey) metadata
  rw [requestOf, requestOf, hget _ (by decide), hget _ (by decide), hget _ (by decide),
    hget _ (by decide)]

theorem replaces_forget (entry : String × Node) :
    replaces (entry.1, entry.2.forget keys) = replaces entry := by
  rw [replaces, replaces, Node.metadata_forget, requestOf_forget hplain, Node.isObject_forget]

theorem misnamed?_forget (entry : String × Node) :
    misnamed? (entry.1, entry.2.forget keys) = misnamed? entry := by
  rw [misnamed?, misnamed?, Node.metadata_forget, requestOf_forget hplain]

theorem keptMember?_forget (entry : String × Node) :
    keptMember? (entry.1, entry.2.forget keys) =
      (keptMember? entry).map fun kept => (kept.1, kept.2.forget keys) := by
  rw [keptMember?, keptMember?, Node.metadata_forget, requestOf_forget hplain]
  cases requestOf entry.2.metadata with
  | rename target =>
      cases target with
      | string key =>
          simp only [Option.map_some]
          rw [Node.forget_withoutInstructions hplain]
      | _ => rfl
  | _ => rfl

theorem picked_forget {p : String × Node → Bool}
    (hp : ∀ entry : String × Node, p (entry.1, entry.2.forget keys) = p entry)
    (members : List (String × Node)) :
    picked p (Members.mapValues (Node.forget keys) members) =
      (picked p members).map (Node.forget keys) := by
  rw [picked, picked, Members.mapValues, List.filter_map, List.map_map, List.map_map]
  have hfilter : (members.filter (p ∘ fun entry => (entry.1, entry.2.forget keys))) =
      members.filter p := List.filter_congr fun entry _ => hp entry
  rw [hfilter]
  exact List.map_congr_left fun entry _ => (Node.forget_withoutInstructions hplain entry.2).symm

theorem combines_forget (request : Request) (entry : String × Node) :
    combines request (entry.1, entry.2.forget keys) = combines request entry := by
  rw [combines, combines, Node.metadata_forget, requestOf_forget hplain, Node.isObject_forget]

theorem assemble_forget (label : Label) (members : List (String × Node)) :
    assemble (label.forget keys) (filed {} (Members.mapValues (Node.forget keys) members)) =
      (assemble label (filed {} members)).forget keys := by
  have hkept : (Members.mapValues (Node.forget keys) members).filterMap keptMember? =
      Members.mapValues (Node.forget keys) (members.filterMap keptMember?) := by
    rw [Members.mapValues, Members.mapValues, List.filterMap_map, List.map_filterMap]
    exact congrArg (members.filterMap ·) (funext (keptMember?_forget hplain))
  have hunder : ∀ (items : List Node) (base : Node),
      items.foldl (fun lower item => (item.forget keys).merge lower) (base.forget keys) =
        (items.foldl (fun lower item => item.merge lower) base).forget keys := fun items base =>
    List.foldl_hom (Node.forget keys) fun lower item => (Node.forget_merge item lower).symm
  have hover : ∀ (items : List Node) (base : Node),
      items.foldl (fun lower item => lower.merge (item.forget keys)) (base.forget keys) =
        (items.foldl Node.merge base).forget keys := fun items base =>
    List.foldl_hom (Node.forget keys) fun lower item => (Node.forget_merge lower item).symm
  have hbase : Node.object (label.forget keys) (Members.ofList (Members.mapValues (Node.forget keys)
      (members.filterMap keptMember?))) =
        (Node.object label (Members.ofList (members.filterMap keptMember?))).forget keys := by
    rw [Node.forget_object, Members.mapValues_ofList]
  simp only [assemble, filed, List.nil_append]
  rw [hkept, picked_forget hplain (combines_forget hplain .merge),
    picked_forget hplain (combines_forget hplain .override), List.foldl_map, List.foldl_map]
  change List.foldl _ (List.foldl _ (Node.object (label.forget keys) (Members.ofList _)) _) _ = _
  rw [hbase, hunder, hover]
  rfl

/-- What an object comes to without what is forgotten is what it comes to from members and a label
without it. -/
theorem result_run_forget (path : String) (label : Label) (members : List (String × Node)) :
    (run path (label.forget keys) (Members.mapValues (Node.forget keys) members)).result =
      (run path label members).result.map (Node.forget keys) := by
  have hmisnamed : (Members.mapValues (Node.forget keys) members).findSome? misnamed? =
      members.findSome? misnamed? := by
    rw [Members.mapValues, List.findSome?_map]
    exact congrArg (members.findSome? ·) (funext (misnamed?_forget hplain))
  have hreplaces : (Members.mapValues (Node.forget keys) members).find? replaces =
      (members.find? replaces).map fun entry => (entry.1, entry.2.forget keys) := by
    rw [Members.mapValues, List.find?_map]
    exact congrArg (fun p => (members.find? p).map _) (funext (replaces_forget hplain))
  rw [result_run, result_run, hmisnamed, hreplaces]
  cases members.findSome? misnamed? with
  | some bad => rfl
  | none =>
      cases members.find? replaces with
      | some entry =>
          refine congrArg Except.ok ?_
          change ((entry.2.forget keys).withoutInstructions).addMetadata
            (label.metadata.forget keys) = _
          rw [← Node.forget_withoutInstructions hplain, ← Node.forget_addMetadata]
      | none => exact congrArg Except.ok (assemble_forget hplain label members)

end ObjectStep

end LayeredConfig
