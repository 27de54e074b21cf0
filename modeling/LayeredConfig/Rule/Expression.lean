import LayeredConfig.Extension.Basic

/-!
# Expressions of rules

A rule computes a value from the one that it matched and from what a transform is told about the
node. What an expression looks for and does not find is `null`.
-/

namespace LayeredConfig

namespace Rule

/-- How a value is computed. -/
inductive Expression where
  /-- The value itself. -/
  | itself
  /-- A fixed value. -/
  | const (value : Json)
  /-- A member of the value. -/
  | pick (key : String)
  /-- An element of the value. -/
  | item (index : Nat)
  /-- A member of the raw root. -/
  | rootKey (key : String)
  /-- A member of the raw container that holds the value. -/
  | parentKey (key : String)
  /-- An entry of the context. -/
  | context (key : String)
  /-- An entry of the node's metadata. -/
  | metadata (key : String)
  /-- An object with the value as its only member. -/
  | wrap (key : String)
  /-- A string in capital letters; other values as they are. -/
  | upper
  /-- The member that an entry of the context names, or else the member `default`. -/
  | select (key : String)
  deriving Repr, Inhabited

/-- The value of an expression. -/
def Expression.eval {ι : Type} (input : Input ι) (value : Json) : Expression → Json
  | .itself => value
  | .const v => v
  | .pick key => (value.member? key).getD .null
  | .item index => (value.item? index).getD .null
  | .rootKey key => (input.root.member? key).getD .null
  | .parentKey key => (input.parent.bind (·.member? key)).getD .null
  | .context key => (input.context.get? key).getD .null
  | .metadata key => (input.metadata.get? key).getD .null
  | .wrap key => .object [(key, value)]
  | .upper =>
    match value with
    | .string s => .string (String.ofList (s.toList.map Char.toUpper))
    | v => v
  | .select key =>
    let chosen := ((input.context.get? key).bind Json.string?).bind value.member?
    (chosen.or (value.member? "default")).getD .null

end Rule

end LayeredConfig
