import TokenFlow.Command.Request
import TokenFlow.Settings.Load

/-!
# What a request leads to

An `Outcome` is what a request writes to its two outputs, the number it ends with, and
what the disk holds afterwards.  A request that cannot be carried out leaves the disk
alone and ends with a complaint.
-/
namespace TokenFlow.Command

/-- What a request is handed to carry it out. -/
structure Tools where
  parse : Parser
  globs : Globs
  documents : Documents

/-- What comes of a request. -/
structure Outcome where
  status : Nat
  out : String := ""
  err : String := ""
  disk : Disk

/-- All was done. -/
def succeeded : Nat := 0

/-- Some files were skipped. -/
def skippedSome : Nat := 1

/-- The request could not be carried out. -/
def refused : Nat := 2

/-- Why a request cannot be carried out. -/
inductive Complaint where
  | unknownFormat (given : String)
  | unknownLanguage (cause : UnknownLanguage)
  | badSettings (cause : Settings.Refusal)
  | noAccess (path : String)
  | notCollected (cause : BatchSetup.Refusal)
  | unknownTemplate (given : String)
  | taken (path : String)
  | noFolder (path : String) (cause : FileError)
  | notWritten (path : String) (cause : FileError)

/-- The lines that are written for a complaint. -/
def Complaint.lines : Complaint → List String
  | unknownFormat given =>
    [s!"Error: invalid format {Text.quoted given}, must be one of " ++
      ", ".intercalate (Format.all.map Format.name)]
  | unknownLanguage cause =>
    ["Error: " ++ cause.message, "Run 'dfgraph languages' to see supported languages"]
  | badSettings cause => ["Error: invalid config: " ++ cause.message]
  | noAccess path => ["Error: cannot access path " ++ Text.quoted path]
  | notCollected cause => ["Error: " ++ cause.message]
  | unknownTemplate given =>
    [s!"Error: unknown template {Text.quoted given} (see 'dfgraph init --list')"]
  | taken path => [s!"Error: {path} already exists"]
  | noFolder path cause => [s!"Error: creating directory {path}: {cause.message}"]
  | notWritten path cause => [s!"Error: writing config {path}: {cause.message}"]

/-- The outcome of a request that failed or not. -/
def Outcome.ofExcept (disk : Disk) : Except Complaint Outcome → Outcome
  | .ok outcome => outcome
  | .error complaint =>
    { status := refused, err := Format.joinLines complaint.lines, disk }

/-- The cause of a failure put into a complaint. -/
def blame {ε α : Type} (complaint : ε → Complaint) : Except ε α → Except Complaint α
  | .ok a => .ok a
  | .error e => .error (complaint e)

namespace ExtractRequest

/-- The format of the report. -/
def format? (r : ExtractRequest) : Except Complaint Format :=
  match Format.ofName? r.format with
  | some format => .ok format
  | none => .error (.unknownFormat r.format)

/-- The language of all files, if one was given. -/
def forced? (r : ExtractRequest) : Except Complaint (Option Tag) :=
  match r.language with
  | none => .ok none
  | some given => (blame .unknownLanguage (Tag.ofName given)).map some

/-- The settings with what the request changes in them. -/
def settings? (r : ExtractRequest) (tools : Tools) (disk : Disk) : Except Complaint Settings :=
  let named := r.settings.map Utf8.octets
  (blame .badSettings (Settings.load tools.globs tools.documents disk named Path.here)).map
    fun s => if r.noState then { s with includeState := false } else s

/-- Reports the graphs of the files at a path. -/
def run (r : ExtractRequest) (tools : Tools) (disk : Disk) (styled : Bool) :
    Except Complaint Outcome := do
  let format ← r.format?
  let forced ← r.forced?
  let settings ← r.settings? tools disk
  let settingsPath := r.settings.or ((Settings.discover? disk Path.here).map Utf8.lossy)
  let path := Utf8.octets r.path
  if !disk.has path then throw (.noAccess r.path)
  let setup : BatchSetup := { settings, forced }
  let paths ← blame .notCollected (setup.collect tools.globs disk path)
  if paths.isEmpty then
    return { status := succeeded, err := "Warning: no supported source files found\n", disk }
  let batch := Batch.run setup disk tools.parse paths
  let appearance : Appearance := { styled, showLive := settings.includeState }
  return {
    status := if batch.hasFailures then skippedSome else succeeded
    out := format.report appearance r.path settingsPath batch
    disk }

end ExtractRequest

/-- The lines that list the languages. -/
def languageLines : List String :=
  ["Supported languages:", "",
    "  " ++ Text.column 12 "TAG" ++ " " ++ Text.column 24 "ALIASES" ++ " EXTENSIONS"] ++
  Tag.all.map fun tag =>
    "  " ++ Text.column 12 tag.name ++ " " ++ Text.column 24 (", ".intercalate tag.aliases) ++
      " " ++ " ".intercalate (tag.language.extensions.map ("." ++ ·))

namespace Template

/-- The lines that list the templates. -/
def listing : List String :=
  ["  " ++ Text.column 12 "TEMPLATE" ++ " DESCRIPTION"] ++
  (all.map fun t =>
    (if t.name == usual.name then "* " else "  ") ++ Text.column 12 t.name ++ " " ++
      t.description) ++
  ["", "* used when --template is omitted"]

/-- Writes the file, with the folders it needs, where there is nothing yet. -/
def write (t : Template) (disk : Disk) (output : String) : Except Complaint Disk := do
  let path := Utf8.octets output
  if disk.has path then throw (.taken output)
  let disk ← match Path.parent? path with
    | none | some [] => .ok disk
    | some folder => blame (.noFolder (Utf8.lossy folder)) (disk.makeFolders folder)
  blame (.notWritten output) (disk.write path t.content.toUTF8)

end Template

namespace InitRequest

/-- Makes a settings file. -/
def run (r : InitRequest) (disk : Disk) : Except Complaint Outcome := do
  if r.list then
    return { status := succeeded, out := Format.joinLines Template.listing, disk }
  match Template.ofName? r.template with
  | none => throw (.unknownTemplate r.template)
  | some template =>
    let disk ← template.write disk r.output
    let isFound := Settings.fileNames.any fun name =>
      Path.fileName? (Utf8.octets r.output) == some (Utf8.octets name)
    return {
      status := succeeded
      out := Format.joinLines <|
        s!"Created {r.output} from template '{template.name}'" ::
          if isFound then []
          else ["Pass it with --config; only " ++ " and ".intercalate Settings.fileNames ++
            " are discovered automatically"]
      disk }

end InitRequest

/-- Carries out a request. -/
def Request.run (tools : Tools) (disk : Disk) (styled : Bool) : Request → Outcome
  | extract r => .ofExcept disk (r.run tools disk styled)
  | languages => { status := succeeded, out := Format.joinLines languageLines, disk }
  | init r => .ofExcept disk (r.run disk)

end TokenFlow.Command
