import LayeredConfig.Context
import LayeredConfig.Position

/-!
# Conditions of rules

A rule applies where all of its tests hold. Tests look at what an extension may look at: the
value, its position, the positions above it and the context.
-/

namespace LayeredConfig

namespace Rule

/-- The three sorts of positions. -/
inductive PositionSort where
  | root
  | key
  | index
  deriving DecidableEq, Repr

/-- The sort of a position. -/
def PositionSort.of : Position → PositionSort
  | .root => .root
  | .key _ => .key
  | .index _ => .index

/-- One test of a condition. -/
inductive Test where
  /-- The position is of that sort. -/
  | position (sort : PositionSort)
  /-- The position is exactly that key. -/
  | key (name : String)
  /-- The position is a key that starts so. -/
  | keyStart (start : String)
  /-- The position is that index. -/
  | index (n : Nat)
  /-- The value is of that type. -/
  | type (type : JsonType)
  /-- The value agrees with that one. -/
  | equals (value : Json)
  /-- The value is an object with that key. -/
  | hasKey (key : String)
  /-- The positions above are written as that path. -/
  | ancestors (path : String)
  /-- There are so many positions above. -/
  | depth (count : Nat)
  /-- One of the positions above is exactly that key. -/
  | underKey (name : String)
  /-- The context has an entry for that key. -/
  | contextHas (key : String)
  /-- The context has all of these entries, up to agreement. -/
  | contextEquals (entries : List (String × Json))
  deriving Repr

/-- Whether a test holds. -/
def Test.holds (value : Json) (position : Position) (ancestors : List Position)
    (context : Context) : Test → Bool
  | .position sort => PositionSort.of position == sort
  | .key expected => position.isKey expected
  | .keyStart start => position.key?.any fun name => start.toList.isPrefixOf name.toList
  | .index n => position.index? == some n
  | .type expected => value.type == expected
  | .equals other => value.agrees other
  | .hasKey name => (value.member? name).isSome
  | .ancestors path => Position.renderPath ancestors == path
  | .depth count => ancestors.length == count
  | .underKey name => ancestors.any (·.isKey name)
  | .contextHas name => (context.get? name).isSome
  | .contextEquals entries =>
    entries.all fun (name, other) => (context.get? name).any fun held => held.agrees other

/-- Whether all tests hold. -/
def applies (tests : List Test) (value : Json) (position : Position) (ancestors : List Position)
    (context : Context) : Bool :=
  tests.all (Test.holds value position ancestors context)

end Rule

end LayeredConfig
