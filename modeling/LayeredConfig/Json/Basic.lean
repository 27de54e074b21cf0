import LayeredConfig.Binary64
import LayeredConfig.Members

/-!
# JSON values

Configuration documents, metadata and contexts are JSON values whose objects keep the order of
their members. A number is an integer or a finite double, and the two are never equal. The type
is plain data; `Json.Distinct` says that no object in a value writes a key twice, which every
reader of this library guarantees, and `Json.Document` is the type of such values.
-/

namespace LayeredConfig

/-- Numbers as documents spell them: `5` is an integer, `5.0` is a double. -/
inductive Number where
  | int (value : Int)
  | double (value : Binary64)
  deriving DecidableEq, Repr, Inhabited

/-- A JSON value. -/
inductive Json where
  | null
  | bool (value : Bool)
  | number (value : Number)
  | string (value : String)
  | array (items : List Json)
  | object (members : List (String × Json))
  deriving Repr, Inhabited

/-- The six types of JSON values. -/
inductive JsonType where
  | null
  | bool
  | number
  | string
  | array
  | object
  deriving DecidableEq, Repr

namespace Json

/-- Induction over a value: a container may use the statement for all it holds. -/
@[elab_as_elim]
theorem induct {motive : Json → Prop} (null : motive null) (bool : ∀ b, motive (bool b))
    (number : ∀ n, motive (number n)) (string : ∀ s, motive (string s))
    (array : ∀ items, (∀ item ∈ items, motive item) → motive (array items))
    (object : ∀ members, (∀ entry ∈ members, motive entry.2) → motive (object members))
    (v : Json) : motive v :=
  Json.rec (motive_1 := motive) (motive_2 := fun items => ∀ item ∈ items, motive item)
    (motive_3 := fun members => ∀ entry ∈ members, motive entry.2)
    (motive_4 := fun entry => motive entry.2)
    null bool number string array object
    (fun _ h => nomatch h)
    (fun _ _ head tail => List.forall_mem_cons.2 ⟨head, tail⟩)
    (fun _ h => nomatch h)
    (fun _ _ head tail => List.forall_mem_cons.2 ⟨head, tail⟩)
    (fun _ _ h => h) v

/-! ### Equality -/

mutual

/-- Equality of values, written down by recursion so that it can be decided. -/
def decideEq : (a b : Json) → Decidable (a = b)
  | .null, .null => isTrue rfl
  | .bool a, .bool b => decidable_of_iff (a = b) (by simp)
  | .number a, .number b => decidable_of_iff (a = b) (by simp)
  | .string a, .string b => decidable_of_iff (a = b) (by simp)
  | .array a, .array b =>
    have := decideEqItems a b
    decidable_of_iff (a = b) (by simp)
  | .object a, .object b =>
    have := decideEqMembers a b
    decidable_of_iff (a = b) (by simp)
  | .null, .bool _ | .null, .number _ | .null, .string _ | .null, .array _ | .null, .object _
  | .bool _, .null | .bool _, .number _ | .bool _, .string _ | .bool _, .array _
  | .bool _, .object _ | .number _, .null | .number _, .bool _ | .number _, .string _
  | .number _, .array _ | .number _, .object _ | .string _, .null | .string _, .bool _
  | .string _, .number _ | .string _, .array _ | .string _, .object _ | .array _, .null
  | .array _, .bool _ | .array _, .number _ | .array _, .string _ | .array _, .object _
  | .object _, .null | .object _, .bool _ | .object _, .number _ | .object _, .string _
  | .object _, .array _ => isFalse (by simp)

/-- Equality of element lists. -/
def decideEqItems : (a b : List Json) → Decidable (a = b)
  | [], [] => isTrue rfl
  | [], _ :: _ | _ :: _, [] => isFalse (by simp)
  | x :: xs, y :: ys =>
    have := decideEq x y
    have := decideEqItems xs ys
    decidable_of_iff (x = y ∧ xs = ys) (by simp)

/-- Equality of member lists. -/
def decideEqMembers : (a b : List (String × Json)) → Decidable (a = b)
  | [], [] => isTrue rfl
  | [], _ :: _ | _ :: _, [] => isFalse (by simp)
  | (j, x) :: xs, (k, y) :: ys =>
    have := decideEq x y
    have := decideEqMembers xs ys
    decidable_of_iff ((j = k ∧ x = y) ∧ xs = ys) (by simp)

end

instance : DecidableEq Json := decideEq

/-! ### Looking into a value -/

/-- The type of a value. -/
def type : Json → JsonType
  | .null => .null
  | .bool _ => .bool
  | .number _ => .number
  | .string _ => .string
  | .array _ => .array
  | .object _ => .object

/-- The integer as a value. -/
def ofInt (n : Int) : Json := .number (.int n)

/-- A double as a value; what is not finite becomes `null`. -/
def ofBinary64? : Option Binary64 → Json
  | some x => .number (.double x)
  | none => .null

/-- The members, `none` when the value is not an object. -/
def members? : Json → Option (Members Json)
  | .object members => some members
  | _ => none

/-- The elements, `none` when the value is not an array. -/
def items? : Json → Option (List Json)
  | .array items => some items
  | _ => none

/-- The text, `none` when the value is not a string. -/
def string? : Json → Option String
  | .string s => some s
  | _ => none

/-- The member of an object; other values have none. -/
def member? (v : Json) (key : String) : Option Json := v.members?.bind (Members.get? key)

/-- The element of an array; other values have none. -/
def item? (v : Json) (index : Nat) : Option Json := v.items?.bind (·[index]?)

/-- Whether the value holds no other values by its type: null, a boolean, a number or a string. -/
def isPrimitive : Json → Bool
  | .array _ | .object _ => false
  | _ => true

mutual

/-- Levels of containers in a value; a primitive has none. -/
def depth : Json → Nat
  | .array items => itemsDepth items + 1
  | .object members => membersDepth members + 1
  | _ => 0

/-- The greatest depth among elements. -/
def itemsDepth : List Json → Nat
  | [] => 0
  | item :: rest => max item.depth (itemsDepth rest)

/-- The greatest depth among member values. -/
def membersDepth : List (String × Json) → Nat
  | [] => 0
  | (_, v) :: rest => max v.depth (membersDepth rest)

end

/-- No object in the value writes a key twice. -/
inductive Distinct : Json → Prop
  | null : Distinct .null
  | bool (b : Bool) : Distinct (.bool b)
  | number (n : Number) : Distinct (.number n)
  | string (s : String) : Distinct (.string s)
  | array {items : List Json} (h : ∀ item ∈ items, Distinct item) : Distinct (.array items)
  | object {members : List (String × Json)} (keys : Members.Distinct members)
      (h : ∀ key value, (key, value) ∈ members → Distinct value) : Distinct (.object members)

theorem Distinct.members {members : List (String × Json)} (h : (Json.object members).Distinct) :
    Members.Distinct members := by
  cases h with
  | object keys _ => exact keys

theorem Distinct.member {members : List (String × Json)} (h : (Json.object members).Distinct)
    {entry : String × Json} (hentry : entry ∈ members) : entry.2.Distinct := by
  cases h with
  | object _ values => exact values entry.1 entry.2 hentry

/-- A value that writes no key twice. `Json` cannot carry this itself: its objects are lists of the
very values that are being defined. -/
abbrev Document := {v : Json // v.Distinct}

/-- Induction over a document: an object may use the statement for its members. -/
@[elab_as_elim]
theorem Document.induct {motive : Document → Prop}
    (object : ∀ members (h : (Json.object members).Distinct),
      (∀ entry (hentry : entry ∈ members), motive ⟨entry.2, h.member hentry⟩) →
        motive ⟨.object members, h⟩)
    (other : ∀ v : Document, v.1.type ≠ .object → motive v) (v : Document) : motive v := by
  obtain ⟨v, hv⟩ := v
  induction v using Json.induct with
  | object members ih =>
      exact object members hv fun entry hentry => ih entry hentry (hv.member hentry)
  | _ => exact other _ nofun

theorem depth_le_itemsDepth {item : Json} {items : List Json} (h : item ∈ items) :
    item.depth ≤ itemsDepth items := by
  induction items with
  | nil => simp at h
  | cons first rest ih =>
      rcases List.mem_cons.1 h with rfl | h
      · simp only [itemsDepth]; omega
      · have := ih h
        simp only [itemsDepth]; omega

theorem depth_le_membersDepth {entry : String × Json} {members : List (String × Json)}
    (h : entry ∈ members) : entry.2.depth ≤ membersDepth members := by
  induction members with
  | nil => simp at h
  | cons first rest ih =>
      rcases List.mem_cons.1 h with rfl | h
      · simp only [membersDepth]; omega
      · have := ih h
        simp only [membersDepth]; omega

end Json

end LayeredConfig
