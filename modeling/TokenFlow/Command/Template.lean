/-!
# Templates of settings files

The settings files that can be made for somebody to start from.
-/
namespace TokenFlow.Command

/-- A settings file to start from. -/
structure Template where
  name : String
  description : String
  /-- The lines of the file. -/
  lines : List String

namespace Template

/-- The text of the file. -/
def content (t : Template) : String :=
  String.join (t.lines.map (· ++ "\n"))

/-- Everything is read and reported. -/
def full : Template where
  name := "default"
  description := "All languages, full output with tokens and final state"
  lines := [
    "# dfgraph configuration",
    "#",
    "# Controls how `dfgraph extract` builds data-flow graphs.",
    "",
    "version: \"1.0\"",
    "name: \"default\"",
    "",
    "# Nesting depth past which a subtree is skipped and reported as degraded.",
    "max_depth: 512",
    "",
    "# Drop repeated (variable, index, sources) edges.",
    "dedupe: true",
    "",
    "# Include the final variable state and the code token sequence per file.",
    "include_state: true",
    "include_tokens: true",
    "",
    "# Restrict directory runs to these languages (empty = all supported).",
    "# Tags: python, java, c_sharp, javascript, php, ruby, go",
    "languages: []",
    "",
    "# Glob patterns (relative to the scanned directory) to skip.",
    "excluded_paths:",
    "  - \"**/vendor/**\"",
    "  - \"**/node_modules/**\"",
    "",
    "include_hidden: false"]

/-- Only what a data set of graphs needs. -/
def dataset : Template where
  name := "dataset"
  description := "Compact records for training data, tests and minified code skipped"
  lines := [
    "# dfgraph configuration for dataset extraction",
    "#",
    "# Compact records for training pipelines: tokens and edges only, one file",
    "# per line with `--format jsonl`.",
    "",
    "version: \"1.0\"",
    "name: \"dataset\"",
    "",
    "max_depth: 256",
    "dedupe: true",
    "",
    "include_state: false",
    "include_tokens: true",
    "",
    "languages: []",
    "",
    "excluded_paths:",
    "  - \"**/vendor/**\"",
    "  - \"**/node_modules/**\"",
    "  - \"**/test/**\"",
    "  - \"**/tests/**\"",
    "  - \"**/*_test.go\"",
    "  - \"**/*.min.js\"",
    "",
    "include_hidden: false"]

/-- All templates, in the order in which they are listed. -/
def all : List Template := [full, dataset]

/-- The template that is taken if none is named. -/
def usual : Template := full

/-- The template with a name. -/
def ofName? (given : String) : Option Template :=
  all.find? (·.name == given)

end Template

end TokenFlow.Command
