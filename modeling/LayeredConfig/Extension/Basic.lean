import LayeredConfig.Context
import LayeredConfig.Node.Basic
import LayeredConfig.Position
import LayeredConfig.Run

/-!
# Extensions

An extension gives meaning to values at some positions. When it applies to a node, its transform
takes the node over: it may wait, report events, and have values evaluated in place of the node,
any number of times, before it answers with a tree or fails. What a transform does is a program,
a tree of such steps, and evaluation runs it. Extensions are named by handles from a type `ι`; a
catalogue says which extension a handle stands for, and two handles are one extension exactly
when they are equal.
-/

namespace LayeredConfig

/-- Settings that a transform changes for one evaluation. Metadata and context go over the
current ones; a source and a list of extensions replace them. -/
structure Overrides (ι : Type) where
  metadata : Option Metadata := none
  source : Option Source := none
  extensions : Option (List ι) := none
  context : Option Context := none
  deriving Inhabited

/-- What a transform does, up to an answer. It has values evaluated one after the other, each time
going on once that has ended; having several evaluated side by side is not described here. -/
inductive Program (ι α : Type) where
  /-- Answers. -/
  | done (answer : α)
  /-- Fails. -/
  | fail (error : ConfigError)
  /-- Waits for some rounds. -/
  | wait (rounds : Nat) (next : Program ι α)
  /-- Reports an event. -/
  | report (event : Event) (next : Program ι α)
  /-- Has a value evaluated and goes on with what came of it. -/
  | parse (value : Json) (overrides : Overrides ι)
      (next : Except ConfigError Node → Program ι α)

namespace Program

variable {ι α β : Type}

/-- Goes on with the answer, if there is one. -/
def bind : Program ι α → (α → Program ι β) → Program ι β
  | .done a, f => f a
  | .fail e, _ => .fail e
  | .wait n next, f => .wait n (next.bind f)
  | .report event next, f => .report event (next.bind f)
  | .parse v overrides next, f => .parse v overrides fun result => (next result).bind f

instance : Monad (Program ι) where
  pure := .done
  bind := bind

/-- Answers with a result, or fails with it. -/
def ofExcept : Except ConfigError α → Program ι α
  | .ok a => .done a
  | .error e => .fail e

/-- Has a value evaluated; a failure of that fails the program. -/
def evaluate (v : Json) (overrides : Overrides ι) : Program ι Node :=
  .parse v overrides ofExcept

/-- A step without waiting. -/
def ofLogged (step : Logged α) : Program ι α :=
  step.events.foldr .report (ofExcept step.result)

/-- Runs a program, `parse` being the evaluation of values. -/
def run (parse : Json → Overrides ι → Run Node) : Program ι α → Run α
  | .done a => pure a
  | .fail e => Run.fail e
  | .wait n next => do
    Run.wait n
    next.run parse
  | .report event next => do
    Run.report event
    next.run parse
  | .parse v overrides next => do
    let result ← (parse v overrides).attempt
    (next result).run parse

end Program

/-- What a transform is told about the node that it takes over: where it stands, the settings
there, the raw container that holds it (none at the root), and the raw root. -/
structure Input (ι : Type) where
  position : Position
  ancestors : List Position
  source : Source
  extensions : List ι
  metadata : Metadata
  context : Context
  parent : Option Json
  root : Json

/-- All positions from the root down to the node. -/
def Input.positions {ι : Type} (input : Input ι) : List Position :=
  input.ancestors ++ [input.position]

/-- The path of the node. -/
def Input.path {ι : Type} (input : Input ι) : String := Position.renderPath input.positions

/-- What an extension that applies does with a node. -/
abbrev Transform (ι : Type) := Input ι → Program ι Node

/-- A directive. `applies` looks at the value, its position, the positions above it (the root
first) and the context. Extensions of one identity count as one when evaluation keeps an
extension from matching its own output. -/
structure Extension (ι : Type) where
  identity : Option String
  applies : Json → Position → List Position → Context → Option (Transform ι)

/-- The extensions that handles stand for. -/
abbrev Catalogue (ι : Type) := ι → Extension ι

/-- What an extension is called in events. -/
def Extension.name {ι : Type} (e : Extension ι) : String := e.identity.getD "<anonymous>"

end LayeredConfig
