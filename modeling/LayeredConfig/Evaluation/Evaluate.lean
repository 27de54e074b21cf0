import LayeredConfig.Evaluation.Frame
import LayeredConfig.Evaluation.ObjectStep

/-!
# Evaluating values

Evaluation goes from the root down. At every node the active extensions are tried before any
child is looked at, and the first that applies takes the node over. Otherwise the members of a
container are evaluated side by side and put together, and a primitive becomes a leaf.

Nothing bounds how often transforms have values evaluated again, so the evaluator counts how deep
its calls nest and stops a run that goes beyond a limit.
-/

namespace LayeredConfig

section

variable {ι : Type} [DecidableEq ι]

/-- Runs for elements side by side, the first of which stands at `index`. -/
def besideItems (f : Nat → Json → Run Node) (index : Nat) : List Json → Run (List Node)
  | [] => pure []
  | item :: rest => (f index item).beside fun _ => besideItems f (index + 1) rest

/-- Runs for members side by side; each node is kept with its key. -/
def besideMembers (f : String → Json → Run Node) :
    List (String × Json) → Run (List (String × Node))
  | [] => pure []
  | (key, value) :: rest =>
    Run.beside (do pure (key, ← f key value)) fun _ => besideMembers f rest

/-- The tree of a value that no extension takes over, its children being evaluated by `call`. -/
def descend (call : Frame ι → Json → Run Node) (frame : Frame ι) (value : Json) : Run Node :=
  let label : Label := ⟨[frame.source], value, frame.metadata⟩
  match value with
  | .array items => do
    let children ← besideItems (fun i => call (frame.child (.index i) value)) 0 items
    pure (.array label children)
  | .object members => do
    let children ← besideMembers (fun key => call (frame.child (.key key) value)) members
    Run.ofLogged (ObjectStep.run frame.path label children)
  | value => pure (.leaf label value)

/-- The tree of a value, in at most `limit` nested calls. -/
def evaluateNode (catalogue : Catalogue ι) : (limit : Nat) → Frame ι → Json → Run Node
  | 0, _, _ => Run.stop .tooDeep
  | limit + 1, frame, value =>
    match frame.match? catalogue value with
    | some (e, transform) => do
      Run.report (.extensionMatched frame.path (catalogue e).name)
      (transform frame.input).run fun v overrides =>
        evaluateNode catalogue limit ((frame.visit e).overridden overrides) v
    | none => descend (evaluateNode catalogue limit) frame value

/-- Settings of evaluations: the extensions to try, the metadata of the root, and the context
visible from the root down. -/
structure Evaluator (ι : Type) where
  extensions : List ι := []
  metadata : Metadata := .empty
  context : Context := .empty

namespace Evaluator

/-- An evaluator with one more extension, to be tried last. -/
def addExtension (ev : Evaluator ι) (e : ι) : Evaluator ι :=
  { ev with extensions := ev.extensions ++ [e] }

/-- The frame of the root of a value. -/
def rootFrame (ev : Evaluator ι) (raw : Json) (source : Source) : Frame ι where
  source := source
  extensions := ev.extensions
  metadata := ev.metadata
  context := ev.context
  ancestors := []
  position := .root
  root := raw
  parent := none
  visited := []

/-- The tree of a value that came from a source, in at most `limit` nested calls. -/
def evaluateWithin (catalogue : Catalogue ι) (limit : Nat) (ev : Evaluator ι) (raw : Json)
    (source : Source) : Run Node :=
  evaluateNode catalogue limit (ev.rootFrame raw source) raw

end Evaluator

end

end LayeredConfig
