import TokenFlow.Files.Disk
import TokenFlow.Settings.Read

/-!
# Finding the settings

Settings come from the file that was named, or else from a file with one of two names
in a folder, or else they are the usual ones.  Settings with a defect are refused.
-/
namespace TokenFlow.Settings

/-- The names of files that are found without being named, in order. -/
def fileNames : List String := ["dfgraph.yaml", ".dfgraph.yaml"]

/-- The settings file of a folder. -/
def discover? (disk : Disk) (folder : Path) : Option Path :=
  (fileNames.map fun name => Path.join folder (Utf8.octets name)).find? disk.isFile

/-- Why settings are refused. -/
inductive Refusal where
  | unreadable (path : Path) (cause : FileError)
  | malformed (path : Path)
  | defective (defect : Defect)

/-- What is said of a refusal. -/
def Refusal.message : Refusal → String
  | unreadable path cause => s!"loading config {Utf8.lossy path}: {cause.message}"
  | malformed path => s!"loading config {Utf8.lossy path}: not a mapping of settings"
  | defective defect => defect.message

/-- The settings in the file at a path. -/
def ofFile (documents : Documents) (disk : Disk) (path : Path) : Except Refusal Settings :=
  match disk.read path with
  | .error cause => .error (.unreadable path cause)
  | .ok content =>
    match ofOctets? documents content.toList with
    | some settings => .ok settings
    | none => .error (.malformed path)

/-- The settings for work in a folder, where a file may have been named. -/
def load (globs : Globs) (documents : Documents) (disk : Disk) (named : Option Path)
    (folder : Path) : Except Refusal Settings := do
  let settings ← match named.or (discover? disk folder) with
    | some path => ofFile documents disk path
    | none => .ok {}
  match settings.defect? globs with
  | some defect => throw (.defective defect)
  | none => return settings

end TokenFlow.Settings
