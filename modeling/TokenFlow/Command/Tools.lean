import TokenFlow.Command.Outcome
import TokenFlow.Glob.Match
import TokenFlow.Yaml.Document

/-!
# What the command line works with

Patterns of paths and documents of settings are read by whatever a request is handed.
On the command line that is what `Glob` and `Yaml` define.
-/
namespace TokenFlow

/-- Patterns as globs. -/
def Glob.globs : Globs where
  read pattern :=
    match Glob.read pattern with
    | .ok pieces => .ok (Glob.matchesPath pieces)
    | .error fault => .error (fault.message pattern)

/-- Documents in YAML. -/
def Yaml.documents : Documents where
  Value := Yaml
  read? := Yaml.parse?
  entries? := Yaml.entries?
  items? := Yaml.items?
  text? := Yaml.text?
  bool? := Yaml.bool?
  natBelow? := Yaml.natBelow?

/-- What the command line hands to a request. -/
def Command.tools (parse : Parser) : Command.Tools :=
  { parse, globs := Glob.globs, documents := Yaml.documents }

end TokenFlow
