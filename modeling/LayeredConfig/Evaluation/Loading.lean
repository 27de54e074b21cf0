import LayeredConfig.Evaluation.Evaluate
import LayeredConfig.Source.Read

/-!
# Loading layers

A layer is a source that is read and evaluated. Layers are loaded one after the other and folded,
later ones on top; layers that are missing are skipped, as long as one of them is there.
-/

namespace LayeredConfig

/-- Where layers are loaded: what sources read from, what handles of extensions stand for, and
how deep evaluation may nest. -/
structure Setting (ι : Type) where
  host : Host
  catalogue : Catalogue ι
  limit : Nat

namespace Evaluator

variable {ι : Type} [DecidableEq ι]

/-- The tree of a value that came from a source. -/
def evaluate (setting : Setting ι) (ev : Evaluator ι) (raw : Json) (source : Source) : Run Node :=
  ev.evaluateWithin setting.catalogue setting.limit raw source

/-- Reads a source and evaluates its value, which is attributed to its origin. -/
def load (setting : Setting ι) (ev : Evaluator ι) (source : Source) : Run Node := do
  let (raw, origin) ← Run.ofLogged (source.read setting.host)
  Run.report (.sourceLoaded origin.describe)
  ev.evaluate setting raw origin

/-- Loads sources behind layers already loaded; `missing` is the last failure that was skipped. -/
def loadOver (setting : Setting ι) (ev : Evaluator ι) (layers : List Node)
    (missing : Option ConfigError) : List Source → Run Node
  | [] =>
    match Node.mergeAll layers with
    | some tree => pure tree
    | none => Run.fail (missing.getD (.notFound "layers" "no sources were supplied"))
  | source :: rest => do
    match ← (ev.load setting source).attempt with
    | .ok layer => loadOver setting ev (layers ++ [layer]) missing rest
    | .error e =>
      if e.isNotFound then
        Run.report (.layerSkipped source.describe)
        loadOver setting ev layers (some e) rest
      else Run.fail e

/-- Loads each source and folds the trees. -/
def loadLayers (setting : Setting ι) (ev : Evaluator ι) (sources : List Source) : Run Node :=
  loadOver setting ev [] none sources

end Evaluator

end LayeredConfig
