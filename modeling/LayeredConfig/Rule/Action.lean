import LayeredConfig.Node.Literal
import LayeredConfig.Node.Merge
import LayeredConfig.Rule.Expression
import LayeredConfig.Source.Read
import LayeredConfig.Text.Quoted

/-!
# Actions of rules

What a rule does with a node that it takes over, written down as data. An action waits, computes
its argument, works on it in one of a few ways, and changes the metadata of the tree it answers
with. `Action.transform` is its meaning as a transform.
-/

namespace LayeredConfig

namespace Rule

/-- The ways in which an action works on its argument. -/
inductive Work where
  /-- Has the argument evaluated, with or without the action's overrides. -/
  | parse (plain : Bool)
  /-- Wraps the argument as it stands. -/
  | literal
  /-- Fails. -/
  | fail (error : ConfigError)
  /-- Tells what a transform is told about the node. -/
  | report
  /-- Evaluates several values in turn and merges the trees. -/
  | merge (expressions : List Expression)
  /-- Reads a source and has its value evaluated, attributed to its origin. -/
  | load (source : Source)
  /-- Has the argument's children evaluated in turn and builds their container itself. -/
  | node
  deriving Inhabited

/-- An action. -/
structure Action (ι : Type) where
  rounds : Nat := 0
  argument : Expression := .itself
  work : Work
  overrides : Overrides ι := {}
  /-- Metadata to lay over that of the answer. -/
  addMetadata : Option Metadata := none
  /-- Keys to take off the metadata of the answer. -/
  dropMetadata : List String := []
  deriving Inhabited

/-- A position as a value. -/
def positionJson : Position → Json
  | .root => .string "root"
  | .key name => .object [("key", .string name)]
  | .index n => .object [("index", Json.ofInt n)]

/-- A list of extensions as a text: their names in quotes. -/
def extensionList {ι : Type} (name : ι → String) (extensions : List ι) : String :=
  Quoted.quoteAll (extensions.map name)

/-- What a transform is told about a node, as a value. -/
def reportJson {ι : Type} (name : ι → String) (input : Input ι) (argument : Json) : Json :=
  .object [
    ("path", .string input.path),
    ("positions", .array (input.positions.map positionJson)),
    ("value", argument),
    ("parent", input.parent.getD .null),
    ("root", input.root),
    ("context_empty", .bool input.context.isEmpty),
    ("metadata", .object input.metadata.entries),
    ("extensions", .string (extensionList name input.extensions)),
    ("source", .string input.source.describe)]

/-- Evaluates values in turn. -/
def evaluateEach {ι : Type} (overrides : Overrides ι) : List Json → Program ι (List Node)
  | [] => pure []
  | value :: rest => do
    let first ← Program.evaluate value overrides
    let others ← evaluateEach overrides rest
    pure (first :: others)

/-- The container of a value, its children evaluated in turn; a primitive becomes a leaf. -/
def buildNode {ι : Type} (label : Label) (overrides : Overrides ι) : Json → Program ι Node
  | .array items => do
    let children ← evaluateEach overrides items
    pure (.array label children)
  | .object members => do
    let children ← evaluateEach overrides (members.map Prod.snd)
    pure (.object label ((members.map Prod.fst).zip children))
  | value => pure (.leaf label value)

/-- The work of an action on the value that it matched and on its argument. `host` is what sources
read from, and `name` what extensions are called. -/
def Work.program {ι : Type} (host : Host) (name : ι → String) (overrides : Overrides ι)
    (input : Input ι) (value argument : Json) : Work → Program ι Node
  | .parse plain => .evaluate argument (if plain then {} else overrides)
  | .literal =>
    let source := overrides.source.getD input.source
    pure (Node.literal source (overrides.metadata.getD .empty) argument)
  | .fail error => .fail error
  | .report => pure (Node.literal input.source .empty (reportJson name input argument))
  | .merge expressions => do
    let trees ← evaluateEach overrides (expressions.map (·.eval input value))
    match Node.mergeAll trees with
    | some tree => pure tree
    | none => .fail (.internal "nothing to merge")
  | .load source => do
    let (raw, origin) ← Program.ofLogged (source.read host)
    .evaluate raw { overrides with source := some origin }
  | .node => buildNode (.of input.source value) overrides argument

/-- The transform that an action describes, for the value that it matched. -/
def Action.transform {ι : Type} (host : Host) (name : ι → String) (action : Action ι)
    (value : Json) : Transform ι := fun input =>
  .wait action.rounds do
    let argument := action.argument.eval input value
    let tree ← action.work.program host name action.overrides input value argument
    let marked := action.addMetadata.elim tree tree.addMetadata
    pure (action.dropMetadata.foldl Node.dropMetadata marked)

end Rule

end LayeredConfig
