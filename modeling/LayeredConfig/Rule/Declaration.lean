import LayeredConfig.Extension.Builtin
import LayeredConfig.Rule.Action
import LayeredConfig.Rule.Condition

/-!
# Declared extensions

A list of declarations makes a catalogue: the handle of an extension is its place in the list. A
declaration may name another one that stands before it.
-/

namespace LayeredConfig

namespace Rule

/-- One declared extension. -/
inductive Declaration where
  /-- Unescapes keys with a doubled marker. -/
  | unescape (marker : String)
  /-- Marks every node below the root. -/
  | mark (metadata : Metadata)
  /-- Marks every node below the root as a secret. -/
  | markSecrets
  /-- An earlier extension under another identity. -/
  | named (identity : String) (inner : Nat)
  /-- Acts on one key. -/
  | key (name : String) (action : Action Nat)
  /-- Acts where a condition holds. -/
  | rule (tests : List Test) (action : Action Nat)
  deriving Inhabited

/-- The identity that a declaration gives its extension. -/
def Declaration.identity : Declaration → Option String
  | .unescape _ => "unescape-directives"
  | .named identity _ => identity
  | .key name _ => name
  | .mark _ | .markSecrets | .rule .. => none

/-- An extension that never applies. -/
def inert : Extension Nat := .anonymous fun _ _ _ _ => none

/-- The extension of a declaration, `earlier` being those before it. -/
def Declaration.extension (host : Host) (name : Nat → String) (earlier : Array (Extension Nat)) :
    Declaration → Extension Nat
  | .unescape marker => .unescapeDirectives marker
  | .mark metadata => .markAll metadata
  | .markSecrets => .markSecrets
  | .named identity inner => .named identity (earlier.getD inner inert)
  | .key directive action =>
    .keyDirective directive fun value => action.transform host name value
  | .rule tests action =>
    .anonymous fun value position ancestors context =>
      if applies tests value position ancestors context then
        some (action.transform host name value)
      else none

/-- What the extension of a handle is called. -/
def nameOf (declarations : Array Declaration) (handle : Nat) : String :=
  (declarations[handle]?.bind Declaration.identity).getD "<anonymous>"

/-- The catalogue of a list of declarations. Handles beyond it never apply. -/
def catalogue (host : Host) (declarations : Array Declaration) : Catalogue Nat :=
  let extensions := declarations.foldl (fun earlier declaration =>
    earlier.push (declaration.extension host (nameOf declarations) earlier)) #[]
  fun handle => extensions.getD handle inert

end Rule

end LayeredConfig
