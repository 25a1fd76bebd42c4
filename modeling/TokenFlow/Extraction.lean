import TokenFlow.Analysis.Graph
import TokenFlow.Edge.Assemble
import TokenFlow.Language.Tag
import TokenFlow.Settings.Basic

/-!
# The data-flow graph of a source file

An `Extraction` is what is reported of one file: its assembled edges, its tokens and
live definitions if they are wanted, and what the analysis left out.
-/
namespace TokenFlow

/-- What is reported of one source file. -/
structure Extraction where
  /-- The path as it is shown. -/
  path : String
  /-- The name of the language. -/
  language : String
  /-- The texts of the tokens, if they are wanted. -/
  tokens : Option (List String)
  edges : List Edge
  /-- The live definitions at the end of the file, if they are wanted. -/
  live : Option LiveDefs
  /-- What is said of the parts that were left out. -/
  degradations : List String
  /-- Whether the file has syntax errors. -/
  hasParseErrors : Bool

namespace Extraction

/-- Whether the file was not read completely. -/
def isDegraded (e : Extraction) : Bool :=
  !e.degradations.isEmpty || e.hasParseErrors

/-- The extraction of one source text with its tree. -/
def ofSource (settings : Settings) (path : String) (tag : Tag) (source : ByteArray)
    (tree : SyntaxTree) : Extraction :=
  let tokens := Tokens.ofTree tag.language source tree.root
  let setup : Setup := { language := tag.language, tokens, limit := settings.maxDepth }
  let graph := setup.graph (.root tree.root) .empty
  { path
    language := tag.name
    tokens := if settings.includeTokens then some tokens.texts else none
    edges := Edge.assemble settings.dedupe graph.edges
    live := if settings.includeState then some graph.live else none
    degradations := graph.degradations.map Degradation.message
    hasParseErrors := tree.hasError }

end Extraction

end TokenFlow
