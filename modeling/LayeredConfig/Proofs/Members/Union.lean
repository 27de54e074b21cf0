import LayeredConfig.Members

/-!
# Unions of members

`unionWith f lower upper` is the map that merging computes on every level: the members of `lower`
in their places, those that `upper` shares combined by `f`, and behind them the members that only
`upper` has. On distinct keys it is determined by its keys and its look-ups, so the laws of
merging are read off `keys_unionWith` and `get?_unionWith`. The main statements are
`mapValues_unionWith_assoc_iff`: two ways of grouping three maps differ only where all three hold
a key and `f` itself is not associative on their entries; and `mapValues_unionWith_eq_left_iff`: a
union gives its lower map back when the upper one has neither keys nor entries to add.
-/

namespace LayeredConfig

namespace Members

variable {α β : Type}

/-- The members of `lower`, those that `upper` shares combined by `f`, and then the members that
only `upper` has. -/
def unionWith (f : α → α → α) (lower upper : Members α) : Members α :=
  (lower.map fun entry => (entry.1, (upper.get? entry.1).elim entry.2 (f entry.2))) ++
    upper.filter fun entry => entry.1 ∉ lower.keys

/-! ### Keys and look-ups -/

theorem mem_keys_of_mem {entry : String × α} {ms : Members α} (h : entry ∈ ms) :
    entry.1 ∈ ms.keys :=
  List.mem_map_of_mem h

theorem keys_filter (p : String → Bool) (ms : Members α) :
    keys (ms.filter fun entry => p entry.1) = ms.keys.filter p := by
  simp [keys, List.filter_map, Function.comp_def]

theorem get?_filter {p : String → Bool} {key : String} (h : p key = true) (ms : Members α) :
    get? key (ms.filter fun entry => p entry.1) = get? key ms := by
  induction ms with
  | nil => rfl
  | cons entry rest ih =>
      obtain ⟨k, v⟩ := entry
      by_cases hk : k = key
      · subst hk
        simp [h, get?_cons]
      · by_cases hp : p k = true
        · simp [hp, get?_cons, hk, ih]
        · simp [hp, get?_cons, hk, ih]

theorem get?_of_mem {key : String} {v : α} {ms : Members α} (hd : ms.Distinct)
    (h : (key, v) ∈ ms) : get? key ms = some v := by
  induction ms with
  | nil => simp at h
  | cons entry rest ih =>
      obtain ⟨k, w⟩ := entry
      obtain ⟨hk, hrest⟩ := List.nodup_cons.1 hd
      rcases List.mem_cons.1 h with heq | hmem
      · cases heq
        simp [get?_cons]
      · have hkey : key ∈ keys rest := mem_keys_of_mem hmem
        have hne : k ≠ key := fun e => hk (e ▸ hkey)
        rw [get?_cons, if_neg hne]
        exact ih hrest hmem

theorem exists_get? {key : String} {ms : Members α} (h : key ∈ ms.keys) :
    ∃ v, get? key ms = some v :=
  Option.ne_none_iff_exists'.1 fun hnone => get?_eq_none_iff.1 hnone h

/-- Two maps of distinct keys are one list when they write the same keys in the same order and
look up alike. -/
theorem eq_of_keys_eq {xs ys : Members α} (hd : xs.Distinct) (hkeys : xs.keys = ys.keys)
    (hget : ∀ key ∈ xs.keys, get? key xs = get? key ys) : xs = ys := by
  induction xs generalizing ys with
  | nil => exact (List.map_eq_nil_iff.1 hkeys.symm).symm
  | cons entry rest ih =>
      obtain ⟨k, v⟩ := entry
      cases ys with
      | nil => simp at hkeys
      | cons other others =>
          obtain ⟨k', w⟩ := other
          obtain ⟨hk, hrest⟩ := List.nodup_cons.1 hd
          simp only [keys_cons, List.cons.injEq] at hkeys
          obtain ⟨rfl, hkeys⟩ := hkeys
          have hhead := hget k (by simp)
          have htail : rest = others := by
            apply ih hrest hkeys
            intro key hkey
            have hne : k ≠ key := fun e => hk (e ▸ hkey)
            have := hget key (List.mem_cons_of_mem _ hkey)
            simpa [get?_cons, hne] using this
          simp only [get?_cons, if_true, Option.some.injEq] at hhead
          rw [hhead, htail]

/-! ### Values under a map -/

@[simp] theorem mapValues_nil (f : α → β) : mapValues f [] = [] := rfl

@[simp] theorem mapValues_cons (f : α → β) (entry : String × α) (rest : Members α) :
    mapValues f (entry :: rest) = (entry.1, f entry.2) :: mapValues f rest := rfl

@[simp] theorem keys_mapValues (f : α → β) (ms : Members α) : (mapValues f ms).keys = ms.keys := by
  simp [keys, mapValues, Function.comp_def]

@[simp] theorem distinct_mapValues (f : α → β) {ms : Members α} :
    (mapValues f ms).Distinct ↔ ms.Distinct := by simp [Distinct]

theorem get?_mapValues (f : α → β) (key : String) (ms : Members α) :
    get? key (mapValues f ms) = (get? key ms).map f := by
  induction ms with
  | nil => rfl
  | cons entry rest ih =>
      obtain ⟨k, v⟩ := entry
      by_cases h : k = key
      · simp [get?_cons, h]
      · simp [get?_cons, h, ih]

theorem mapValues_congr {f g : α → β} {ms : Members α} (h : ∀ entry ∈ ms, f entry.2 = g entry.2) :
    mapValues f ms = mapValues g ms :=
  List.map_congr_left fun entry hentry => by rw [h entry hentry]

theorem mapValues_id (ms : Members α) : mapValues id ms = ms := List.map_id ms

theorem mapValues_mapValues {γ : Type} (f : α → β) (g : β → γ) (ms : Members α) :
    mapValues g (mapValues f ms) = mapValues (g ∘ f) ms :=
  List.map_map

theorem filter_mapValues (f : α → β) (p : β → Bool) (ms : Members α) :
    (mapValues f ms).filter (fun entry => p entry.2) =
      mapValues f (ms.filter fun entry => p (f entry.2)) :=
  List.filter_map

theorem mapValues_insert (f : α → β) (key : String) (v : α) (ms : Members α) :
    mapValues f (insert key v ms) = insert key (f v) (mapValues f ms) := by
  induction ms with
  | nil => rfl
  | cons entry rest ih =>
      obtain ⟨k, w⟩ := entry
      by_cases h : k = key
      · simp [insert, h]
      · simp [insert, h, ih]

theorem mapValues_extend (f : α → β) (base upper : Members α) :
    mapValues f (extend base upper) = extend (mapValues f base) (mapValues f upper) := by
  induction upper generalizing base with
  | nil => rfl
  | cons entry rest ih =>
      change mapValues f (extend (insert entry.1 entry.2 base) rest) = _
      rw [ih, mapValues_insert]
      rfl

theorem mapValues_ofList (f : α → β) (entries : List (String × α)) :
    mapValues f (ofList entries) = ofList (mapValues f entries) := mapValues_extend f [] entries

/-! ### Entries of maps that are built up -/

theorem mem_insert {key : String} {v : α} {ms : Members α} {entry : String × α}
    (h : entry ∈ insert key v ms) : entry = (key, v) ∨ entry ∈ ms := by
  induction ms with
  | nil => simpa [insert] using h
  | cons first rest ih =>
      obtain ⟨k, w⟩ := first
      by_cases hk : k = key
      · subst hk
        rw [insert, if_pos rfl] at h
        rcases List.mem_cons.1 h with h | h
        · exact .inl h
        · exact .inr (List.mem_cons_of_mem _ h)
      · rw [insert, if_neg hk] at h
        rcases List.mem_cons.1 h with h | h
        · exact .inr (h ▸ List.mem_cons_self)
        · exact (ih h).imp_right (List.mem_cons_of_mem _)

theorem mem_extend {base upper : Members α} {entry : String × α} (h : entry ∈ extend base upper) :
    entry ∈ base ∨ entry ∈ upper := by
  induction upper generalizing base with
  | nil => exact .inl h
  | cons first rest ih =>
      rcases ih h with h | h
      · rcases mem_insert h with rfl | h
        · exact .inr List.mem_cons_self
        · exact .inl h
      · exact .inr (List.mem_cons_of_mem _ h)

theorem mem_ofList {entries : List (String × α)} {entry : String × α} (h : entry ∈ ofList entries) :
    entry ∈ entries :=
  (mem_extend h).resolve_left List.not_mem_nil

/-! ### Keys and look-ups of a union -/

theorem keys_unionWith (f : α → α → α) (lower upper : Members α) :
    (unionWith f lower upper).keys =
      lower.keys ++ upper.keys.filter fun key => key ∉ lower.keys := by
  rw [unionWith, keys_append, keys_filter fun key => key ∉ lower.keys]
  simp [keys, Function.comp_def]

theorem Distinct.unionWith {f : α → α → α} {lower upper : Members α} (hl : lower.Distinct)
    (hu : upper.Distinct) : (unionWith f lower upper).Distinct := by
  rw [Distinct, keys_unionWith, List.nodup_append]
  refine ⟨hl, hu.filter _, ?_⟩
  rintro a ha b hb rfl
  simp [ha] at hb

theorem get?_unionWith (f : α → α → α) (lower upper : Members α) (key : String) :
    get? key (unionWith f lower upper) = (get? key lower).merge f (get? key upper) := by
  have hlower : get? key (lower.map fun entry =>
      (entry.1, (upper.get? entry.1).elim entry.2 (f entry.2))) =
        (get? key lower).map fun v => (upper.get? key).elim v (f v) := by
    induction lower with
    | nil => rfl
    | cons entry rest ih =>
        obtain ⟨k, v⟩ := entry
        by_cases h : k = key
        · simp [get?_cons, h]
        · simp [get?_cons, h, ih]
  rw [unionWith, get?_append, hlower]
  cases hk : get? key lower with
  | some v => cases hu : get? key upper <;> simp
  | none =>
      have hout : decide (key ∉ lower.keys) = true := by simpa using get?_eq_none_iff.1 hk
      have hfilter := get?_filter (p := fun key => key ∉ lower.keys) hout upper
      simpa using hfilter

theorem mem_unionWith {f : α → α → α} {lower upper : Members α} {entry : String × α}
    (h : entry ∈ unionWith f lower upper) :
    entry ∈ lower ∨ entry ∈ upper ∨
      ∃ v w, (entry.1, v) ∈ lower ∧ (entry.1, w) ∈ upper ∧ entry.2 = f v w := by
  rw [unionWith, List.mem_append, List.mem_map] at h
  rcases h with ⟨held, hheld, rfl⟩ | h
  · cases hu : get? held.1 upper with
    | none => exact .inl (by simpa [hu] using hheld)
    | some w =>
        exact .inr (.inr ⟨held.2, w, hheld, mem_of_get?_eq_some hu, rfl⟩)
  · exact .inr (.inl (List.mem_filter.1 h).1)

/-! ### Laws of unions -/

@[simp] theorem unionWith_nil (f : α → α → α) (lower : Members α) :
    unionWith f lower [] = lower := by
  simp [unionWith]

@[simp] theorem unionWith_nil_left (f : α → α → α) (upper : Members α) :
    unionWith f [] upper = upper :=
  List.filter_eq_self.2 (by simp)

/-- Laying one more entry over a map comes before laying the others over it. -/
theorem unionWith_cons {f : α → α → α} {lower rest : Members α} {key : String} {v : α}
    (hl : lower.Distinct) (hr : Distinct ((key, v) :: rest)) :
    unionWith f lower ((key, v) :: rest) =
      unionWith f (insert key ((get? key lower).elim v fun held => f held v) lower) rest := by
  obtain ⟨hkey, hrest⟩ := List.nodup_cons.1 hr
  apply eq_of_keys_eq (hl.unionWith hr)
  · rw [keys_unionWith, keys_unionWith]
    by_cases hmem : key ∈ lower.keys
    · simp [keys_insert_of_mem hmem, hmem]
    · have hne : ∀ k ∈ rest.keys, k ≠ key := fun k hk e => hkey (e ▸ hk)
      simp only [insert_of_not_mem hmem, keys_append, keys_cons, keys_nil, hmem, not_false_eq_true,
        decide_true, List.filter_cons_of_pos, List.append_assoc, List.singleton_append]
      congr 2
      apply List.filter_congr
      intro k hk
      simp [hne k hk]
  · intro k _
    rw [get?_unionWith, get?_unionWith, get?_insert, get?_cons]
    by_cases hk : key = k
    · subst hk
      have hnone : get? key rest = none := get?_eq_none_iff.2 hkey
      cases hl' : get? key lower <;> simp [hnone]
    · simp [hk]

/-- Picking keys before or after a union is the same. -/
theorem filter_unionWith (p : String → Bool) (f : α → α → α) (lower upper : Members α) :
    (unionWith f lower upper).filter (fun entry => p entry.1) =
      unionWith f (lower.filter fun entry => p entry.1)
        (upper.filter fun entry => p entry.1) := by
  rw [unionWith, unionWith, List.filter_append, List.filter_map, List.filter_filter,
    List.filter_filter]
  congr 1
  · apply List.map_congr_left
    intro entry hentry
    rw [get?_filter (List.mem_filter.1 hentry).2]
  · apply List.filter_congr
    intro entry _
    rw [keys_filter]
    by_cases hp : p entry.1 = true <;> simp [hp]

theorem mapValues_unionWith {f : α → α → α} {g : α → β} {f' : β → β → β} {lower upper : Members α}
    (h : ∀ entry ∈ lower, ∀ w, get? entry.1 upper = some w →
      g (f entry.2 w) = f' (g entry.2) (g w)) :
    mapValues g (unionWith f lower upper) =
      unionWith f' (mapValues g lower) (mapValues g upper) := by
  have hupper : mapValues g (upper.filter fun entry => entry.1 ∉ lower.keys) =
      (mapValues g upper).filter fun entry => entry.1 ∉ (mapValues g lower).keys := by
    rw [keys_mapValues, mapValues, mapValues, List.filter_map]
    rfl
  rw [unionWith, unionWith, ← hupper, mapValues, List.map_append, mapValues, mapValues]
  congr 1
  rw [List.map_map, List.map_map]
  apply List.map_congr_left
  intro entry hentry
  have hget : get? entry.1 (upper.map fun e => (e.1, g e.2)) = (get? entry.1 upper).map g :=
    get?_mapValues g entry.1 upper
  cases hw : get? entry.1 upper with
  | none => simp [hw, hget]
  | some w => simp [hw, hget, h entry hentry w hw]

theorem keys_unionWith_assoc (f : α → α → α) (x y z : Members α) :
    (unionWith f (unionWith f x y) z).keys = (unionWith f x (unionWith f y z)).keys := by
  simp only [keys_unionWith, List.filter_append, List.append_assoc, List.filter_filter]
  congr 2
  apply List.filter_congr
  intro key _
  by_cases hx : key ∈ x.keys <;> by_cases hy : key ∈ y.keys <;> simp [hx, hy]

/-- Two ways of grouping three maps give the same entries, seen through `g`, exactly when they
do so at every key that all three hold. -/
theorem mapValues_unionWith_assoc_iff {f : α → α → α} {g : α → β} {x y z : Members α}
    (hx : x.Distinct) (hy : y.Distinct) (hz : z.Distinct) :
    mapValues g (unionWith f (unionWith f x y) z) =
        mapValues g (unionWith f x (unionWith f y z)) ↔
      ∀ key a b c, get? key x = some a → get? key y = some b → get? key z = some c →
        g (f (f a b) c) = g (f a (f b c)) := by
  constructor
  · intro h key a b c ha hb hc
    have hget := congrArg (get? key) h
    simpa [get?_mapValues, get?_unionWith, ha, hb, hc] using hget
  · intro h
    apply eq_of_keys_eq
    · exact (distinct_mapValues g).2 ((hx.unionWith hy).unionWith hz)
    · rw [keys_mapValues, keys_mapValues, keys_unionWith_assoc]
    · -- A key that one of the three maps lacks is combined at most once.
      intro key _
      simp only [get?_mapValues, get?_unionWith]
      cases ha : get? key x with
      | none => simp
      | some a =>
          cases hb : get? key y with
          | none => simp
          | some b =>
              cases hc : get? key z with
              | none => simp
              | some c => simp [h key a b c ha hb hc]

/-- A union gives the entries of the lower map back, seen through `g`, exactly when that map holds
every key of the upper one and `f` changes none of its entries. -/
theorem mapValues_unionWith_eq_left_iff {f : α → α → α} {g : α → β} {lower upper : Members α}
    (hl : lower.Distinct) :
    mapValues g (unionWith f lower upper) = mapValues g lower ↔
      ∀ key w, get? key upper = some w → ∃ v, get? key lower = some v ∧ g (f v w) = g v := by
  constructor
  · intro h key w hw
    have hget := congrArg (get? key) h
    simp only [get?_mapValues, get?_unionWith, hw] at hget
    cases hv : get? key lower with
    | none => simp [hv] at hget
    | some v => exact ⟨v, rfl, by simpa [hv] using hget⟩
  · intro h
    have hkeys : (unionWith f lower upper).keys = lower.keys := by
      rw [keys_unionWith, List.filter_eq_nil_iff.2, List.append_nil]
      intro key hkey
      obtain ⟨w, hw⟩ := exists_get? hkey
      obtain ⟨v, hv, -⟩ := h key w hw
      have hmem : key ∈ lower.keys := mem_keys_of_mem (mem_of_get?_eq_some hv)
      simpa using hmem
    symm
    apply eq_of_keys_eq ((distinct_mapValues g).2 hl)
    · rw [keys_mapValues, keys_mapValues, hkeys]
    · intro key _
      rw [get?_mapValues, get?_mapValues, get?_unionWith]
      cases hw : get? key upper with
      | none => rw [Option.merge_none_right]
      | some w =>
          obtain ⟨v, hv, heq⟩ := h key w hw
          simp [hv, heq]

theorem unionWith_eq_left_iff {f : α → α → α} {lower upper : Members α} (hl : lower.Distinct) :
    unionWith f lower upper = lower ↔
      ∀ key w, get? key upper = some w → ∃ v, get? key lower = some v ∧ f v w = v := by
  simpa [mapValues_id] using mapValues_unionWith_eq_left_iff (g := id) hl

end Members

end LayeredConfig
