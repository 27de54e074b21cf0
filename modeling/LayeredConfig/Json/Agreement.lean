import LayeredConfig.Json.Basic

/-!
# Values that agree

Two documents agree when they hold the same value: the order of object members does not matter,
an integer is never a double, and the two zeros among the doubles count as one. Tests on values
(in conditions, on metadata, on contexts) use this relation; `=` on `Json` also compares order.
-/

namespace LayeredConfig

/-- Numbers of one kind and one value. -/
def Number.agrees : Number → Number → Bool
  | .int a, .int b => a == b
  | .double a, .double b => a.sameValue b
  | _, _ => false

namespace Json

mutual

/-- Whether two values agree. -/
def agrees : Json → Json → Bool
  | .null, .null => true
  | .bool a, .bool b => a == b
  | .number a, .number b => a.agrees b
  | .string a, .string b => a == b
  | .array a, .array b => itemsAgree a b
  | .object a, .object b => a.length == b.length && membersAgree a b
  | _, _ => false

/-- Elements agree place by place. -/
def itemsAgree : List Json → List Json → Bool
  | [], [] => true
  | x :: xs, y :: ys => x.agrees y && itemsAgree xs ys
  | _, _ => false

/-- Every member agrees with the member of the same key on the other side. -/
def membersAgree : List (String × Json) → List (String × Json) → Bool
  | [], _ => true
  | (key, x) :: rest, others =>
    (match Members.get? key others with
      | some y => x.agrees y
      | none => false) && membersAgree rest others

end

end Json

/-- Two maps agree as the objects they are the members of. -/
def Members.agree (xs ys : Members Json) : Bool := (Json.object xs).agrees (Json.object ys)

end LayeredConfig
