import TokenFlow.Extraction
import TokenFlow.Files.Disk
import TokenFlow.Settings.Basic

/-!
# Many files at once

`BatchSetup.collect` finds the source files that a path stands for, and `Batch.run` takes
the extraction of each file of a list.  A file that cannot be extracted leaves a
failure in its place and does not touch the others, and both lists come out in the
order of their paths, so a batch depends on which files are listed and not on the
order in which they are.

How the content of a file and the tree of a source text are got and what a pattern of
paths matches is not the concern of a batch: a `Reader`, a `Parser` and `Globs` are
handed to it.

Files are told apart by the octets of their paths.  What is said of a file says its path
as it is shown.
-/
namespace TokenFlow

/-- Gives the tree of a source text, for the path of its file, or says why it cannot. -/
abbrev Parser := Tag → Path → ByteArray → Except String SyntaxTree

/-- Gives the content of the file at a path, or says why it cannot. -/
abbrev Reader := Path → Except String ByteArray

/-- Reads the files on a disk. -/
def Disk.reader (disk : Disk) : Reader :=
  fun path => (disk.read path).mapError FileError.message

/-- The language of the file at a path, told from its extension if that is a text. -/
def Tag.ofPath? (path : Path) : Option Tag :=
  ((Path.extension? path).bind Utf8.undamaged?).bind Tag.ofExtension?

/-- Why a file has no extraction. -/
inductive FailureKind where
  | unsupportedLanguage
  | read
  | parse
  deriving DecidableEq, Repr

/-- The kinds of failures in the order in which they are counted. -/
def FailureKind.all : List FailureKind := [unsupportedLanguage, read, parse]

/-- The written name of a kind of failures. -/
def FailureKind.text : FailureKind → String
  | unsupportedLanguage => "unsupported_language"
  | read => "read"
  | parse => "parse"

/-- A file that has no extraction. -/
structure Failure where
  /-- The path as it is shown. -/
  path : String
  kind : FailureKind
  message : String
  deriving DecidableEq, Repr

/-- What is reported of a list of files. -/
structure Batch where
  extractions : List Extraction
  failures : List Failure

/-- How the files of a batch are chosen and read. -/
structure BatchSetup where
  settings : Settings
  /-- The language of all files, if it is not to be told from their extensions. -/
  forced : Option Tag := none

namespace BatchSetup

/-- The folders that are never entered. -/
def skippedFolders : List String := ["node_modules", "vendor", "target", "__pycache__"]

/-- Whether an entry of a folder is passed by, with everything in it. -/
def passesBy (b : BatchSetup) (name : FileName) (tree : FileTree) : Bool :=
  let shown := Utf8.lossy name
  (!b.settings.includeHidden && shown.toList.head? == some '.') ||
    (tree.isFolder && skippedFolders.contains shown)

mutual
/-- The files in a tree that are not passed by, with the names that lead to them. -/
def reach (b : BatchSetup) : FileTree → List (List FileName)
  | .file _ => [[]]
  | .folder entries => b.reachIn entries
  | .special => []

/-- The files in the entries of a folder that are not passed by. -/
def reachIn (b : BatchSetup) : List (FileName × FileTree) → List (List FileName)
  | [] => []
  | (name, tree) :: rest =>
    (if b.passesBy name tree then [] else (b.reach tree).map (name :: ·)) ++ b.reachIn rest
end

/-- The language of the file at a path. -/
def tagOf? (b : BatchSetup) (path : Path) : Option Tag :=
  b.forced.or (Tag.ofPath? path)

/-- Whether the file that some names lead to is wanted, where only some languages are
allowed. -/
def wants (b : BatchSetup) (globs : Globs) (allowed : Option (List Tag))
    (names : List FileName) : Bool :=
  let path := Path.ofSteps names
  !b.settings.isExcluded globs path &&
    match b.tagOf? path with
    | none => false
    | some tag => allowed.all (·.contains tag)

/-- The wanted files of a folder, in the order of the names that lead to them. -/
def wanted (b : BatchSetup) (globs : Globs) (allowed : Option (List Tag)) (tree : FileTree) :
    List (List FileName) :=
  ((b.reach tree).filter (b.wants globs allowed)).mergeSort Path.comesFirst

/-- Why no files can be collected. -/
inductive Refusal where
  | missing (path : Path)
  | unknownLanguage (cause : UnknownLanguage)

/-- What is said of a refusal. -/
def Refusal.message : Refusal → String
  | missing path => "path does not exist: " ++ Utf8.lossy path
  | unknownLanguage cause => cause.message

/-- The files that a path stands for: a file for itself, a folder for the wanted files
in it. -/
def collect (b : BatchSetup) (globs : Globs) (disk : Disk) (path : Path) :
    Except Refusal (List Path) :=
  match disk.get path with
  | .ok (.file _) => .ok [path]
  | .ok (.folder entries) =>
    -- which languages are allowed matters only where files are chosen
    match b.settings.languageFilter with
    | .error cause => .error (.unknownLanguage cause)
    | .ok allowed =>
      .ok ((b.wanted globs allowed (.folder entries)).map fun names =>
        Path.join path (Path.ofSteps names))
  | _ => .error (.missing path)

/-- The extraction of the file at a path. -/
def extract (b : BatchSetup) (read : Reader) (parse : Parser) (path : Path) :
    Except Failure Extraction :=
  let shown := Utf8.lossy path
  match b.tagOf? path with
  | none => .error ⟨shown, .unsupportedLanguage, "no grammar for " ++ shown⟩
  | some tag =>
    match read path with
    | .error message => .error ⟨shown, .read, message⟩
    | .ok source =>
      -- from here on the language goes by its name
      match Tag.ofName tag.name with
      | .error cause => .error ⟨shown, .unsupportedLanguage, cause.message⟩
      | .ok tag =>
        match parse tag path source with
        | .error message => .error ⟨shown, .parse, message⟩
        | .ok tree => .ok (Extraction.ofSource b.settings shown tag source tree)

end BatchSetup

namespace Batch

/-- The extraction in an outcome. -/
def success? : Except Failure Extraction → Option Extraction
  | .ok e => some e
  | .error _ => none

/-- The failure in an outcome. -/
def failure? : Except Failure Extraction → Option Failure
  | .ok _ => none
  | .error f => some f

/-- Puts together what came of several files. -/
def ofOutcomes (outcomes : List (Except Failure Extraction)) : Batch where
  extractions := (outcomes.filterMap success?).mergeSort fun e f => decide (e.path ≤ f.path)
  failures := (outcomes.filterMap failure?).mergeSort fun e f => decide (e.path ≤ f.path)

/-- What comes of a list of files that some reader reads. -/
def ofFiles (b : BatchSetup) (read : Reader) (parse : Parser) (paths : List Path) : Batch :=
  ofOutcomes (paths.map (b.extract read parse))

/-- What comes of a list of files on a disk. -/
def run (b : BatchSetup) (disk : Disk) (parse : Parser) (paths : List Path) : Batch :=
  ofFiles b disk.reader parse paths

def hasFailures (b : Batch) : Bool := !b.failures.isEmpty

/-- How often each kind of failure occurs, for the kinds that do. -/
def failureCounts (b : Batch) : List (FailureKind × Nat) :=
  (FailureKind.all.map fun kind => (kind, b.failures.countP (·.kind == kind))).filter (·.2 ≠ 0)

/-- How many files were not read completely. -/
def degradedCount (b : Batch) : Nat :=
  b.extractions.countP Extraction.isDegraded

/-- How many edges there are. -/
def edgeCount (b : Batch) : Nat :=
  b.extractions.foldl (fun n e => n + e.edges.length) 0

end Batch

end TokenFlow
