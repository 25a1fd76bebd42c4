import TokenFlow.Report.Document
import TokenFlow.Report.Terminal

/-!
# Formats of reports

A batch is reported in one of three formats, which go by their names.
-/
namespace TokenFlow

/-- The formats of reports. -/
inductive Format where
  | pretty
  | json
  | jsonl
  deriving DecidableEq, Repr

namespace Format

/-- All formats, in the order in which they are listed. -/
def all : List Format := [pretty, json, jsonl]

def name : Format → String
  | pretty => "pretty"
  | json => "json"
  | jsonl => "jsonl"

/-- The format that goes by a name. -/
def ofName? (given : String) : Option Format :=
  all.find? (·.name == given)

/-- A text of whole lines. -/
def joinLines (lines : List String) : String :=
  String.join (lines.map (· ++ "\n"))

/-- The report on a batch that was made for a path, perhaps with a settings file. -/
def report (f : Format) (a : Appearance) (path : String) (settingsPath : Option String)
    (b : Batch) : String :=
  joinLines <| match f with
    | pretty => a.report path settingsPath b
    | json => [(b.document path settingsPath).pretty]
    | jsonl => b.lines

end Format

end TokenFlow
