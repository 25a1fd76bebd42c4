import TokenFlow.Files.Tree

/-!
# What paths lead to

A `Disk` is a tree of files together with the folder in it where paths start that do
not start at the root.  A path is followed piece by piece: whatever a further piece
follows has to be a folder, so a stroke behind the name of a file leads nowhere.
Before that the path as a whole has to be one that can be asked for: names and paths
are of limited length, and none holds a zero octet.
-/
namespace TokenFlow

/-- Why a path cannot be followed, read or written. -/
inductive FileError where
  | notFound
  | notFolder
  | isFolder
  | alreadyExists
  | tooLong
  /-- There is something there that cannot be opened. -/
  | notOpened
  /-- There is a zero octet in the path. -/
  | zeroOctet
  deriving DecidableEq, Repr

/-- What is said of an error, with the number the system gives it, if it is the system
that finds it. -/
def FileError.message : FileError → String
  | notFound => "No such file or directory (os error 2)"
  | notFolder => "Not a directory (os error 20)"
  | isFolder => "Is a directory (os error 21)"
  | alreadyExists => "File exists (os error 17)"
  | tooLong => "File name too long (os error 36)"
  | notOpened => "No such device or address (os error 6)"
  | zeroOctet => "file name contained an unexpected NUL byte"

/-- A tree of files and the folder at hand in it. -/
structure Disk where
  root : FileTree
  /-- The names that lead from the root to the folder at hand. -/
  working : List FileName := []

namespace Disk

/-- How many octets a name may have. -/
def nameLimit : Nat := 255

/-- How many octets a path may have. -/
def pathLimit : Nat := 4095

/-- Whether a path can be asked for at all. -/
def checkPath (path : Path) : Except FileError Unit :=
  if path.contains 0 then .error .zeroOctet
  else if path == [] then .error .notFound
  else if path.length > pathLimit then .error .tooLong
  else .ok ()

/-- Follows one more piece of a path from the place that some names lead to. -/
def follow (d : Disk) (names : List FileName) (piece : FileName) :
    Except FileError (List FileName) :=
  match d.root.at? names with
  | none => .error .notFound
  | some (.file _) | some .special => .error .notFolder
  | some (.folder _) =>
    if Path.isIdle piece then .ok names
    else if piece = Path.above then .ok names.dropLast
    else if piece.length > nameLimit then .error .tooLong
    else .ok (names ++ [piece])

/-- The names that some pieces of a path lead through, from the root.  Whether there is
anything behind the last of them is left open. -/
def locate (d : Disk) (absolute : Bool) (pieces : List FileName) :
    Except FileError (List FileName) :=
  pieces.foldlM d.follow (if absolute then [] else d.working)

/-- What a path leads to. -/
def get (d : Disk) (path : Path) : Except FileError FileTree := do
  checkPath path
  let names ← d.locate (Path.isAbsolute path) (Path.pieces path)
  match d.root.at? names with
  | some tree => return tree
  | none => throw .notFound

/-- Whether a path leads to anything. -/
def has (d : Disk) (path : Path) : Bool :=
  (d.get path).isOk

/-- Whether a path leads to a file. -/
def isFile (d : Disk) (path : Path) : Bool :=
  match d.get path with
  | .ok (.file _) => true
  | _ => false

/-- The content of the file a path leads to. -/
def read (d : Disk) (path : Path) : Except FileError ByteArray := do
  match ← d.get path with
  | .file content => return content
  | .folder _ => throw .isFolder
  | .special => throw .notOpened

/-- Places something on the disk. -/
def place (d : Disk) (names : List FileName) (tree : FileTree) : Disk :=
  { d with root := d.root.put names tree }

/-- Makes the folder at the end of some steps, in a folder that is there. -/
def makeFolder (d : Disk) (absolute : Bool) (steps : List FileName) : Except FileError Disk := do
  let names ← d.locate absolute steps
  match d.root.at? names with
  | some _ => throw .alreadyExists
  | none => return d.place names (.folder [])

/-- Whether steps lead to a folder. -/
def hasFolder (d : Disk) (absolute : Bool) (steps : List FileName) : Bool :=
  match d.locate absolute steps with
  | .ok names => (d.root.at? names).any FileTree.isFolder
  | .error _ => false

/-- Makes a folder, unless it is there. -/
def ensureFolder (d : Disk) (absolute : Bool) (steps : List FileName) : Except FileError Disk :=
  match d.makeFolder absolute steps with
  | .ok made => .ok made
  | .error e => if d.hasFolder absolute steps then .ok d else .error e

/-- Makes a folder and the folders on the way to it, where the steps are listed from
the last to the first.  It starts with the whole way and shortens it only while
something on it is not found. -/
def makeWay (absolute : Bool) : List FileName → Disk → Except FileError Disk
  | [], d => .ok d
  | last :: before, d =>
    let steps := (last :: before).reverse
    match d.ensureFolder absolute steps with
    -- something in front of the last step is missing, so that is made first
    | .error .notFound => (makeWay absolute before d).bind (·.ensureFolder absolute steps)
    | outcome => outcome

/-- Makes the folder at a path, and the folders on the way to it, unless it is there. -/
def makeFolders (d : Disk) (path : Path) : Except FileError Disk := do
  checkPath path
  makeWay (Path.isAbsolute path) (Path.steps path).reverse d

/-- Writes a file, in place of the one at the path. -/
def write (d : Disk) (path : Path) (content : ByteArray) : Except FileError Disk := do
  checkPath path
  match (Path.pieces path).reverse.dropWhile (· == []) with
  | [] => throw .isFolder
  | last :: before =>
    let folder ← d.locate (Path.isAbsolute path) before.reverse
    -- a stroke behind the name asks for a folder
    if (Path.pieces path).getLast? == some [] then
      let _ ← d.follow folder Path.here
      throw .isFolder
    let names ← d.follow folder last
    match d.root.at? names with
    | some (.folder _) => throw .isFolder
    | some .special => throw .notOpened
    | _ => return d.place names (.file content)

/-- The files on a disk that are new or changed since it was another, with the names
that lead to them from the folder at hand. -/
def changes (before after : Disk) : List (List FileName × ByteArray) :=
  match after.root.at? after.working with
  | none => []
  | some tree => tree.files.filter fun (names, content) =>
      match before.root.at? (before.working ++ names) with
      | some (.file old) => old.data ≠ content.data
      | _ => true

end Disk

end TokenFlow
