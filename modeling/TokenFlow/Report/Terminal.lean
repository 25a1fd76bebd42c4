import TokenFlow.Batch
import TokenFlow.Report.Program
import TokenFlow.Text.Column
import TokenFlow.Text.Style

/-!
# Reports for people

A batch is written as text in columns, with styles where the terminal has them: first
what was read, then each extraction with its edges, then the files that were skipped,
and a summary at the end.
-/
namespace TokenFlow

/-- How a report looks. -/
structure Appearance where
  /-- Whether the terminal has styles. -/
  styled : Bool
  /-- Whether the live definitions at the end of files are shown. -/
  showLive : Bool

/-- The style a relation is shown in. -/
def Relation.style : Relation → Text.Style
  | comesFrom => .green
  | computedFrom => .blue

namespace Appearance

/-- A piece of text in a style. -/
def paint (a : Appearance) (style : Text.Style) (text : String) : String :=
  style.paint a.styled text

/-- The lines in front of all extractions. -/
def header (a : Appearance) (path : String) (settingsPath : Option String) : List String :=
  ["", "  " ++ a.paint .title Program.name ++ " v" ++ Program.version, "",
    "  " ++ a.paint .dimmed "Path:   " ++ path] ++
  (settingsPath.map fun p => "  " ++ a.paint .dimmed "Config: " ++ p).toList ++
  [""]

/-- The line of an edge. -/
def edge (a : Appearance) (e : Edge) : String :=
  "    " ++ Text.column 24 s!"{e.name}@{e.index}" ++ " " ++
    a.paint e.relation.style (Text.column 14 e.relation.text) ++ " " ++
    ", ".intercalate (e.sources.map Source.text)

/-- The lines of the live definitions at the end of a file. -/
def live (a : Appearance) (s : LiveDefs) : List String :=
  ("    " ++ a.paint .dimmed "final state:") ::
    s.entries.map fun (name, defs) =>
      "      " ++ Text.column 22 name ++ " [" ++ ", ".intercalate (defs.map Nat.repr) ++ "]"

/-- The lines of an extraction. -/
def extraction (a : Appearance) (e : Extraction) : List String :=
  ["  " ++ a.paint .bold e.path ++ "  " ++ a.paint .dimmed ("[" ++ e.language ++ "]") ++
    (if e.hasParseErrors then "  " ++ a.paint .yellow "(syntax errors)" else "")] ++
  (if e.edges.isEmpty then ["    " ++ a.paint .dimmed "no data-flow edges"]
    else e.edges.map a.edge) ++
  (e.degradations.map fun d => "    " ++ a.paint .yellow "!" ++ " " ++ a.paint .dimmed d) ++
  (if a.showLive then (e.live.map a.live).getD [] else []) ++
  [""]

/-- The line of a file that was skipped. -/
def failure (a : Appearance) (f : Failure) : String :=
  "    " ++ a.paint .red "✗" ++ " " ++ f.path ++ "  " ++
    a.paint .dimmed (f.kind.text ++ ": " ++ f.message)

/-- The lines of all files that were skipped. -/
def failures (a : Appearance) : List Failure → List String
  | [] => []
  | fs => ("  " ++ a.paint .bold "Skipped files:") :: fs.map a.failure ++ [""]

/-- The line at the end. -/
def summary (a : Appearance) (b : Batch) : String :=
  "  " ++ (if b.hasFailures then a.paint .yellow "✗ PARTIAL" else a.paint .green "✓ DONE") ++
    s!"  {b.extractions.length} files, {b.edgeCount} edges" ++
    (if b.hasFailures then a.paint .red s!", {b.failures.length} skipped" else "") ++
    (if b.degradedCount = 0 then "" else a.paint .dimmed s!" ({b.degradedCount} degraded)")

/-- All lines on a batch that was made for a path, perhaps with a settings file. -/
def report (a : Appearance) (path : String) (settingsPath : Option String) (b : Batch) :
    List String :=
  a.header path settingsPath ++ b.extractions.flatMap a.extraction ++ a.failures b.failures ++
    [a.summary b, ""]

end Appearance

end TokenFlow
