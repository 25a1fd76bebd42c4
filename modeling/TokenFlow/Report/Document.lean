import TokenFlow.Batch
import TokenFlow.Json
import TokenFlow.Report.Program

/-!
# Reports for programs

A batch is written as one JSON document with everything in it, or as one line of JSON
for each extraction.  What was not asked for has no field, nor have degradations where
there are none.
-/
namespace TokenFlow

/-- A list of texts. -/
def Json.texts (items : List String) : Json :=
  .list (items.map .text)

/-- A list of numbers. -/
def Json.numbers (items : List Nat) : Json :=
  .list (items.map .number)

def Edge.toJson (e : Edge) : Json :=
  .object [("variable", .text e.name), ("index", .number e.index),
    ("relation", .text e.relation.text), ("source_names", .texts e.sourceNames),
    ("source_indices", .numbers e.sourceIndices)]

def LiveDefs.toJson (s : LiveDefs) : Json :=
  .object (s.entries.map fun (name, defs) => (name, .numbers defs))

def Extraction.toJson (e : Extraction) : Json :=
  .object <|
    [("path", .text e.path), ("language", .text e.language)] ++
    (e.tokens.map fun tokens => ("tokens", Json.texts tokens)).toList ++
    [("edges", .list (e.edges.map Edge.toJson))] ++
    (e.live.map fun live => ("state", live.toJson)).toList ++
    (if e.degradations.isEmpty then [] else [("degradations", Json.texts e.degradations)]) ++
    [("has_parse_errors", .bool e.hasParseErrors)]

def Failure.toJson (f : Failure) : Json :=
  .object [("path", .text f.path), ("kind", .text f.kind.text), ("message", .text f.message)]

namespace Batch

/-- How often each kind of failure occurs, in the order of their names. -/
def countsByName (b : Batch) : List (String × Nat) :=
  (b.failureCounts.map fun (kind, count) => (kind.text, count)).mergeSort
    fun m n => decide (m.1 ≤ n.1)

/-- The document on a batch that was made for a path, perhaps with a settings file. -/
def document (b : Batch) (path : String) (settingsPath : Option String) : Json :=
  .object <|
    [("version", .text Program.version), ("path", .text path)] ++
    (settingsPath.map fun p => ("config", Json.text p)).toList ++
    [("files_extracted", .number b.extractions.length),
      ("files_failed", .number b.failures.length),
      ("files_degraded", .number b.degradedCount),
      ("edge_count", .number b.edgeCount),
      ("extractions", .list (b.extractions.map Extraction.toJson)),
      ("failures", .list (b.failures.map Failure.toJson)),
      ("failure_counts", .object (b.countsByName.map fun (name, count) => (name, .number count)))]

/-- One line for each extraction. -/
def lines (b : Batch) : List String :=
  b.extractions.map fun e => e.toJson.compact

end Batch

end TokenFlow
