/-!
# Ordered members

The members of an object, and every other map of this library, keep the order in which their keys
were first written. They are plain lists of pairs, since values and trees are recursive types whose
objects hold members of the type itself, and such a type cannot ask for distinct keys while it is
being defined. That keys are distinct is the predicate `Members.Distinct`, which `insert` keeps and
`ofList` establishes; whole values and trees that have it everywhere are types of their own,
`Json.Document` and `Node.Keyed`. Looking a key up finds its first entry, so on lists with distinct
keys `get?`, `insert` and `erase` are the operations of a map, and their order laws are equations on
`keys`.
-/

namespace LayeredConfig

/-- Pairs of a key and a value, in the order in which the keys were first written. -/
abbrev Members (α : Type) := List (String × α)

namespace Members

variable {α β : Type}

/-- The keys, in order. -/
def keys (ms : Members α) : List String := ms.map Prod.fst

/-- No key occurs twice. -/
def Distinct (ms : Members α) : Prop := ms.keys.Nodup

instance (ms : Members α) : Decidable ms.Distinct := inferInstanceAs (Decidable ms.keys.Nodup)

/-- The value of the first entry for `key`. -/
def get? (key : String) : Members α → Option α
  | [] => none
  | (k, v) :: rest => if k = key then some v else get? key rest

/-- Sets the value of `key`: an entry that is there keeps its place, a new one goes last. -/
def insert (key : String) (value : α) : Members α → Members α
  | [] => [(key, value)]
  | (k, v) :: rest => if k = key then (k, value) :: rest else (k, v) :: insert key value rest

/-- Removes the first entry for `key`; the entries behind it close up. -/
def erase (key : String) : Members α → Members α
  | [] => []
  | (k, v) :: rest => if k = key then rest else (k, v) :: erase key rest

/-- Inserts the entries of `upper` one after the other. -/
def extend (base upper : Members α) : Members α :=
  upper.foldl (fun ms entry => ms.insert entry.1 entry.2) base

/-- The map that a list of entries spells: a repeated key keeps its first place and takes its
last value. -/
def ofList (entries : List (String × α)) : Members α := extend [] entries

/-- Applies `f` to every value. -/
def mapValues (f : α → β) (ms : Members α) : Members β := ms.map fun entry => (entry.1, f entry.2)

/-! ### Looking up -/

@[simp] theorem get?_nil (key : String) : get? key ([] : Members α) = none := rfl

theorem get?_cons (key k : String) (v : α) (rest : Members α) :
    get? key ((k, v) :: rest) = if k = key then some v else get? key rest := rfl

@[simp] theorem keys_nil : keys ([] : Members α) = [] := rfl

@[simp] theorem keys_cons (entry : String × α) (rest : Members α) :
    keys (entry :: rest) = entry.1 :: keys rest := rfl

@[simp] theorem keys_append (xs ys : Members α) : keys (xs ++ ys) = keys xs ++ keys ys :=
  List.map_append

theorem get?_eq_none_iff {key : String} {ms : Members α} : get? key ms = none ↔ key ∉ keys ms := by
  induction ms with
  | nil => simp
  | cons entry rest ih =>
      obtain ⟨k, v⟩ := entry
      by_cases h : k = key
      · simp [get?_cons, h]
      · simp [get?_cons, h, ih, Ne.symm h]

theorem mem_of_get?_eq_some {key : String} {v : α} {ms : Members α} (h : get? key ms = some v) :
    (key, v) ∈ ms := by
  induction ms with
  | nil => simp at h
  | cons entry rest ih =>
      obtain ⟨k, w⟩ := entry
      by_cases hk : k = key
      · simp_all [get?_cons]
      · simp only [get?_cons, if_neg hk] at h
        exact List.mem_cons_of_mem _ (ih h)

theorem get?_append (key : String) (xs ys : Members α) :
    get? key (xs ++ ys) = (get? key xs).or (get? key ys) := by
  induction xs with
  | nil => simp
  | cons entry rest ih =>
      obtain ⟨k, v⟩ := entry
      by_cases h : k = key <;> simp [get?_cons, h, ih]

/-! ### Inserting -/

theorem get?_insert (key other : String) (value : α) (ms : Members α) :
    get? other (insert key value ms) = if key = other then some value else get? other ms := by
  induction ms with
  | nil => simp [insert, get?_cons]
  | cons entry rest ih =>
      obtain ⟨k, v⟩ := entry
      by_cases h : k = key
      · by_cases h' : key = other <;> simp_all [insert, get?_cons]
      · by_cases h' : k = other
        · subst h'
          simp [insert, get?_cons, h, Ne.symm h]
        · simp [insert, get?_cons, h, h', ih]

theorem keys_insert_of_mem {key : String} {value : α} {ms : Members α} (h : key ∈ keys ms) :
    keys (insert key value ms) = keys ms := by
  induction ms with
  | nil => simp at h
  | cons entry rest ih =>
      obtain ⟨k, v⟩ := entry
      by_cases hk : k = key
      · simp [insert, hk]
      · have : key ∈ keys rest := by simpa [Ne.symm hk] using h
        simp [insert, hk, ih this]

theorem insert_of_not_mem {key : String} {value : α} {ms : Members α} (h : key ∉ keys ms) :
    insert key value ms = ms ++ [(key, value)] := by
  induction ms with
  | nil => rfl
  | cons entry rest ih =>
      obtain ⟨k, v⟩ := entry
      simp only [keys_cons, List.mem_cons, not_or] at h
      simp [insert, Ne.symm h.1, ih h.2]

theorem Distinct.insert {key : String} {value : α} {ms : Members α} (h : ms.Distinct) :
    (ms.insert key value).Distinct := by
  by_cases hk : key ∈ keys ms
  · simpa [Distinct, keys_insert_of_mem hk] using h
  · rw [insert_of_not_mem hk, Distinct, keys_append, List.nodup_append]
    refine ⟨h, by simp, fun a ha b hb => ?_⟩
    obtain rfl : b = key := by simpa using hb
    exact fun e => hk (e ▸ ha)

theorem Distinct.extend {base upper : Members α} (h : base.Distinct) :
    (base.extend upper).Distinct := by
  induction upper generalizing base with
  | nil => exact h
  | cons entry rest ih => exact ih h.insert

theorem distinct_ofList (entries : List (String × α)) : (ofList entries).Distinct :=
  Distinct.extend List.nodup_nil

/-! ### Removing -/

theorem erase_sublist (key : String) (ms : Members α) : (erase key ms).Sublist ms := by
  induction ms with
  | nil => exact List.Sublist.refl _
  | cons entry rest ih =>
      obtain ⟨k, v⟩ := entry
      by_cases h : k = key
      · simp [erase, h]
      · simpa [erase, h] using ih

theorem get?_erase_of_ne {key other : String} (h : key ≠ other) (ms : Members α) :
    get? other (erase key ms) = get? other ms := by
  induction ms with
  | nil => rfl
  | cons entry rest ih =>
      obtain ⟨k, v⟩ := entry
      by_cases hk : k = key
      · simp [erase, hk, get?_cons, h]
      · simp [erase, hk, get?_cons, ih]

/-- On distinct keys, a key that is removed is gone. -/
theorem get?_erase_self {key : String} {ms : Members α} (h : ms.Distinct) :
    get? key (erase key ms) = none := by
  induction ms with
  | nil => rfl
  | cons entry rest ih =>
      obtain ⟨k, v⟩ := entry
      obtain ⟨hk, hrest⟩ := List.nodup_cons.1 h
      by_cases he : k = key
      · subst he
        simpa [erase] using get?_eq_none_iff.2 hk
      · simp [erase, he, get?_cons, ih hrest]

theorem Distinct.erase {key : String} {ms : Members α} (h : ms.Distinct) :
    (ms.erase key).Distinct :=
  List.Nodup.sublist ((erase_sublist key ms).map Prod.fst) h

end Members

end LayeredConfig
