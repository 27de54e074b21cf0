import LayeredConfig.Json.Basic
import LayeredConfig.Position

/-!
# What holds everywhere in a value

A value has itself and all values inside it as subvalues. `Everywhere P` says that all of them
satisfy `P`; the equations take it apart along the value, as those for trees do. `Leads` says under
which positions a value holds another.
-/

namespace LayeredConfig

namespace Json

mutual

/-- A value, and behind it all values inside it. -/
def subvalues : Json → List Json
  | .array items => .array items :: itemsSubvalues items
  | .object members => .object members :: membersSubvalues members
  | v => [v]

def itemsSubvalues : List Json → List Json
  | [] => []
  | item :: rest => subvalues item ++ itemsSubvalues rest

def membersSubvalues : List (String × Json) → List Json
  | [] => []
  | (_, value) :: rest => subvalues value ++ membersSubvalues rest

end

/-- Every subvalue satisfies `P`. -/
def Everywhere (P : Json → Prop) (v : Json) : Prop := ∀ part ∈ v.subvalues, P part

instance (P : Json → Prop) [DecidablePred P] (v : Json) : Decidable (v.Everywhere P) :=
  inferInstanceAs (Decidable (∀ part ∈ v.subvalues, P part))

/-- The keys of an object; other values have none. -/
def keys (v : Json) : List String := Members.keys (v.members?.getD [])

@[simp] theorem keys_array (items : List Json) : (array items).keys = [] := rfl

@[simp] theorem keys_object (members : List (String × Json)) :
    (object members).keys = Members.keys members := rfl

theorem itemsSubvalues_eq_flatMap (items : List Json) :
    itemsSubvalues items = items.flatMap subvalues := by
  induction items with
  | nil => rw [itemsSubvalues, List.flatMap_nil]
  | cons item rest ih => rw [itemsSubvalues, ih, List.flatMap_cons]

theorem membersSubvalues_eq_flatMap (members : List (String × Json)) :
    membersSubvalues members = members.flatMap fun entry => entry.2.subvalues := by
  induction members with
  | nil => rw [membersSubvalues, List.flatMap_nil]
  | cons entry rest ih => rw [membersSubvalues, ih, List.flatMap_cons]

variable {P : Json → Prop}

theorem everywhere_of_isPrimitive {v : Json} (h : v.isPrimitive = true) :
    v.Everywhere P ↔ P v := by
  cases v with
  | array items => simp [isPrimitive] at h
  | object members => simp [isPrimitive] at h
  | _ => simp [Everywhere, subvalues]

theorem everywhere_array {items : List Json} :
    (array items).Everywhere P ↔ P (array items) ∧ ∀ item ∈ items, item.Everywhere P := by
  simp only [Everywhere, subvalues, itemsSubvalues_eq_flatMap, List.forall_mem_cons,
    List.forall_mem_flatMap]

theorem everywhere_object {members : List (String × Json)} :
    (object members).Everywhere P ↔
      P (object members) ∧ ∀ entry ∈ members, entry.2.Everywhere P := by
  simp only [Everywhere, subvalues, membersSubvalues_eq_flatMap, List.forall_mem_cons,
    List.forall_mem_flatMap]

/-- No object in the value writes a key twice, which can be decided object by object. -/
theorem distinct_iff_everywhere {v : Json} :
    v.Distinct ↔ v.Everywhere fun part => part.keys.Nodup := by
  induction v using Json.induct with
  | array items ih =>
      rw [everywhere_array]
      constructor
      · rintro (_ | _ | _ | _ | hitems)
        exact ⟨List.nodup_nil, fun item hitem => (ih item hitem).1 (hitems item hitem)⟩
      · exact fun h => .array fun item hitem => (ih item hitem).2 (h.2 item hitem)
  | object members ih =>
      rw [everywhere_object]
      constructor
      · exact fun h => ⟨h.members, fun entry hentry => (ih entry hentry).1 (h.member hentry)⟩
      · exact fun h => .object h.1 fun key value hentry => (ih _ hentry).2 (h.2 _ hentry)
  | _ =>
      exact iff_of_true (by constructor) ((everywhere_of_isPrimitive rfl).2 List.nodup_nil)

instance (v : Json) : Decidable v.Distinct := decidable_of_iff _ distinct_iff_everywhere.symm

/-! ### Where values stand -/

/-- The positions lead from a value down to a value inside it. -/
inductive Leads : Json → List Position → Json → Prop
  | here (v : Json) : Leads v [] v
  | item {items : List Json} {index : Nat} {item v : Json} {path : List Position} :
      items[index]? = some item → Leads item path v → Leads (.array items) (.index index :: path) v
  | member {members : List (String × Json)} {key : String} {value v : Json} {path : List Position} :
      (key, value) ∈ members → Leads value path v → Leads (.object members) (.key key :: path) v

/-- A path that ends with a key leads through an object that holds it. -/
theorem Leads.getLast?_ne_key {v w : Json} {path : List Position} {key : String}
    (h : v.Leads path w) (hv : v.Everywhere fun part => key ∉ part.keys) :
    path.getLast? ≠ some (.key key) := by
  induction h with
  | here v => exact nofun
  | @item items index item w path hitem hlead ih =>
      have hrest := ih ((everywhere_array.1 hv).2 item (List.mem_of_getElem? hitem))
      rw [List.getLast?_cons]
      cases hlast : path.getLast? with
      | none => simp
      | some last => simpa [hlast] using hrest
  | @member members k value w path hmember hlead ih =>
      obtain ⟨hkeys, hmembers⟩ := everywhere_object.1 hv
      have hrest := ih (hmembers _ hmember)
      rw [List.getLast?_cons]
      cases hlast : path.getLast? with
      | none =>
          have hne : k ≠ key := fun heq => hkeys (heq ▸ List.mem_map_of_mem hmember)
          simpa using hne
      | some last => simpa [hlast] using hrest

end Json

end LayeredConfig
