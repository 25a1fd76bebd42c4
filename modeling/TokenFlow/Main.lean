import TokenFlow.Command.Sources
import TokenFlow.Command.Tools

/-!
# The command line

Reads from the real disk what a request can look at, lets the library decide, and
writes what came of it.
-/
namespace TokenFlow.Command

/-- An entry of a folder of the real disk, whose path need not be in that folder. -/
def entryAt (path : Path) : IO.FS.DirEntry := { root := ".", fileName := Utf8.lossy path }

/-- What there is at an entry of a kind on the real disk, with everything in it.  Links in
a folder are not followed. -/
partial def snapshot (entry : IO.FS.DirEntry) : IO.FS.FileType → IO FileTree
  | .dir => do
    let below ← (← entry.path.readDir).toList.mapM fun e => do
      return (Utf8.octets e.fileName, ← snapshot e (← e.path.symlinkMetadata).type)
    return .folder below
  | .file => return .file (← IO.FS.readBinFile entry.path)
  | .symlink | .other => return .special

/-- Takes what is at a path of the real disk over to a disk, with the folders on the
way to it. -/
def takeOver (disk : Disk) (path : Path) : IO Disk := do
  let mut disk := disk
  for (come, names) in waypoints disk.working path do
    let entry := entryAt (if come == [] then [Path.stroke] else come)
    if ← entry.path.pathExists then
      if come == path then
        disk := disk.place names (← snapshot entry (← entry.path.metadata).type)
      else if (disk.root.at? names).isNone then
        disk := disk.place names (if ← entry.path.isDir then .folder [] else .file .empty)
  return disk

/-- Writes the files of a disk that another did not have to the real disk. -/
def bringOut (before after : Disk) : IO Unit := do
  let changed := Disk.changes { before with working := [] } { after with working := [] }
  for (names, content) in changed do
    IO.FS.createDirAll (entryAt (Path.stroke :: Path.ofSteps names.dropLast)).path
    IO.FS.writeBinFile (entryAt (Path.stroke :: Path.ofSteps names)).path content

end TokenFlow.Command

open TokenFlow in
/-- Does what the arguments ask for and answers the number to end with. -/
def main (args : List String) : IO UInt32 := do
  match Command.Invocation.ofArguments args with
  | .error .help =>
    IO.print (Format.joinLines Command.usageLines)
    return 0
  | .error .usage =>
    IO.eprint (Format.joinLines Command.usageLines)
    return 2
  | .ok invocation =>
    let working := Path.steps (Utf8.octets (← IO.currentDir).toString)
    let empty : Disk := { root := FileTree.put (.folder []) working (.folder []), working }
    let disk ← invocation.request.paths.foldlM Command.takeOver empty
    let styled := (← (← IO.getStdout).isTty) && (← IO.getEnv "NO_COLOR").isNone
    let tools := Command.tools (Command.listedTrees disk)
    let outcome := invocation.request.run tools disk styled
    Command.bringOut disk outcome.disk
    IO.print outcome.out
    IO.eprint outcome.err
    return outcome.status.toUInt32
