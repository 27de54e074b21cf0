import LayeredConfig.ConfigError
import LayeredConfig.Json.Reader
import LayeredConfig.Toml.Reader

/-!
# Documents given as text

Texts that come from no source, read in a known format. A failure names the place in the text,
where the format's reader keeps one.
-/

namespace LayeredConfig

/-- The value of a JSON text; a failure names line and column. -/
def Json.read (text : String) : Except ConfigError Json :=
  match Json.parse text with
  | .ok v => .ok v
  | .error failure =>
    let (line, column) := failure.place text
    .error (.parse ("JSON at line " ++ toString line ++ ", column " ++ toString column) .json)

/-- The value of a TOML text. -/
def Toml.read (text : String) : Except ConfigError Json :=
  match Toml.parse text with
  | some v => .ok v
  | none => .error (.parse "TOML" .toml)

end LayeredConfig
