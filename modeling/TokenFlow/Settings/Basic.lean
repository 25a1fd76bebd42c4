import TokenFlow.Analysis.Setup
import TokenFlow.Files.Path
import TokenFlow.Language.Tag
import TokenFlow.Text.Quoted

/-!
# Settings

`Settings` say how files are chosen and what is reported of them.  Any settings can
be written down; `defect?` finds what is wrong with them, if anything is: the depth
first, then the names of languages, then the patterns of excluded paths.

Which patterns there are and what they match is not for the settings to say: they are
handed a way to read them, `Globs`.
-/
namespace TokenFlow

/-- A way to read patterns of paths. -/
structure Globs where
  /-- Which shown paths a pattern matches, or what is said of one that cannot be read. -/
  read : String → Except String (String → Bool)

/-- How files are chosen and what is reported of them. -/
structure Settings where
  version : String := ""
  name : String := ""
  /-- The depth of nesting behind which nodes are left out. -/
  maxDepth : Nat := defaultDepth
  /-- Whether repeated edges are dropped. -/
  dedupe : Bool := true
  /-- Whether the live definitions at the end of a file are reported. -/
  includeState : Bool := true
  /-- Whether the tokens of a file are reported. -/
  includeTokens : Bool := true
  /-- The names of the only languages to read in folders; none for all. -/
  languages : List String := []
  /-- Patterns of the paths to leave out. -/
  excludedPaths : List String := []
  /-- Whether files and folders whose name starts with a dot are read. -/
  includeHidden : Bool := false
  deriving DecidableEq, Repr

namespace Settings

/-- The greatest depth that may be asked for. -/
def depthCeiling : Nat := 4096

/-- What can be wrong with settings. -/
inductive Defect where
  | depthZero
  | depthTooGreat (depth : Nat)
  | unknownLanguage (entry : String) (cause : UnknownLanguage)
  | badPattern (pattern : String) (cause : String)

/-- What is said of a defect. -/
def Defect.message : Defect → String
  | depthZero => "max_depth must be at least 1"
  | depthTooGreat depth => s!"max_depth {depth} exceeds the limit of {depthCeiling}"
  | unknownLanguage entry cause =>
    s!"invalid languages entry {Text.quoted entry}: {cause.message}"
  | badPattern pattern cause =>
    s!"invalid excluded_paths pattern {Text.quoted pattern}: {cause}"

/-- The defect of an entry in the list of languages. -/
def languageDefect? (entry : String) : Option Defect :=
  match Tag.ofName entry with
  | .ok _ => none
  | .error cause => some (.unknownLanguage entry cause)

/-- The defect of a pattern in the list of excluded paths. -/
def patternDefect? (globs : Globs) (pattern : String) : Option Defect :=
  match globs.read pattern with
  | .ok _ => none
  | .error cause => some (.badPattern pattern cause)

/-- The first defect of some settings. -/
def defect? (s : Settings) (globs : Globs) : Option Defect :=
  if s.maxDepth = 0 then some .depthZero
  else if s.maxDepth > depthCeiling then some (.depthTooGreat s.maxDepth)
  else
    (s.languages.findSome? languageDefect?).or
      (s.excludedPaths.findSome? (patternDefect? globs))

/-- The only languages to read in folders, or none for all. -/
def languageFilter (s : Settings) : Except UnknownLanguage (Option (List Tag)) := do
  if s.languages.isEmpty then return none
  return some (← s.languages.mapM Tag.ofName)

/-- Whether a path is to be left out: patterns are held against what it is shown as.  A
pattern that cannot be read leaves nothing out. -/
def isExcluded (s : Settings) (globs : Globs) (path : Path) : Bool :=
  s.excludedPaths.any fun pattern =>
    match globs.read pattern with
    | .ok matchesPath => matchesPath (Utf8.lossy path)
    | .error _ => false

end Settings

end TokenFlow
