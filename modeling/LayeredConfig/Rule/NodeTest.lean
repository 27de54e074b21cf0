import LayeredConfig.Node.Basic
import LayeredConfig.Json.Agreement

/-!
# Tests on nodes

Tests by which nodes are kept or dropped when a tree is filtered, written down as data.
-/

namespace LayeredConfig

namespace Rule

/-- A test on a node. -/
inductive NodeTest where
  /-- Always the same answer. -/
  | const (answer : Bool)
  /-- The metadata has the flag. -/
  | flag (key : String)
  /-- The metadata has an entry. -/
  | hasMetadata (key : String)
  /-- The source is among those of the node itself. -/
  | source (source : Source)
  /-- The node is of that shape. -/
  | shape (shape : Node.Shape)
  /-- The node is a leaf with a value of that type. -/
  | leafType (type : JsonType)
  /-- The value of the node agrees with that one. -/
  | equals (value : Json)
  /-- The test does not hold. -/
  | not (test : NodeTest)
  /-- All tests hold. -/
  | all (tests : List NodeTest)
  /-- One of the tests holds. -/
  | any (tests : List NodeTest)
  deriving Inhabited

namespace NodeTest

mutual

/-- Whether a node passes a test. -/
def accepts (n : Node) : NodeTest → Bool
  | .const answer => answer
  | .flag key => n.metadata.flag key
  | .hasMetadata key => (n.metadata.get? key).isSome
  | .source s => n.sources.any (·.sameAs s)
  | .shape expected => n.shape == expected
  | .leafType expected => n.value?.any fun v => v.type == expected
  | .equals value => n.toJson.agrees value
  | .not test => !accepts n test
  | .all tests => allAccept n tests
  | .any tests => anyAccepts n tests

/-- Whether a node passes all tests. -/
def allAccept (n : Node) : List NodeTest → Bool
  | [] => true
  | test :: rest => accepts n test && allAccept n rest

/-- Whether a node passes one of the tests. -/
def anyAccepts (n : Node) : List NodeTest → Bool
  | [] => false
  | test :: rest => accepts n test || anyAccepts n rest

end

end NodeTest

end Rule

end LayeredConfig
