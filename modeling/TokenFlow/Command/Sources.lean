import TokenFlow.Command.Outcome
import TokenFlow.Syntax.Listing

/-!
# Where a request reads

A request reads only what some paths lead to, and they can be told from the request.
The tree of a source file stands listed in a file beside it.
-/
namespace TokenFlow.Command

/-- The path of the listed tree of a source file. -/
def listingPath (path : Path) : Path := path ++ Utf8.octets ".tree"

/-- Takes trees from the listings on a disk. -/
def listedTrees (disk : Disk) : Parser := fun _ path source =>
  let shown := Utf8.lossy (listingPath path)
  match disk.read (listingPath path) with
  | .error e => .error (s!"no tree in {shown}: " ++ e.message)
  | .ok listing =>
    match SyntaxTree.ofListing? source listing with
    | some tree => .ok tree
    | none => .error s!"malformed tree in {shown}"

/-- The paths a request follows. -/
def Request.paths : Request → List Path
  | extract r =>
    let path := Utf8.octets r.path
    (Settings.fileNames.map fun name => Path.join Path.here (Utf8.octets name)) ++
      r.settings.toList.map Utf8.octets ++ [path, listingPath path]
  | languages => []
  | init r => [Utf8.octets r.output]

/-- A path and the shorter paths to the folders on the way to it, the shortest first.
Beside each path stand the names it leads through from the root. -/
def waypoints (working : List FileName) (path : Path) : List (Path × List FileName) :=
  let start := if Path.isAbsolute path then [] else working
  let extend (way : List (Path × List FileName)) (piece : FileName) :=
    let (before, names) := way.getLast?.getD ([], start)
    let come := if way.isEmpty then piece else before ++ Path.stroke :: piece
    let names :=
      if Path.isIdle piece then names
      else if piece = Path.above then names.dropLast
      else names ++ [piece]
    way ++ [(come, names)]
  (Path.pieces path).foldl extend []

/-- What is written for arguments that lead to no request. -/
def usageLines : List String :=
  ["Usage: dfgraph [-v]... <COMMAND>", "",
    "Commands:",
    "  extract PATH [-l LANGUAGE] [-c CONFIG] [-f FORMAT] [--no-state] [-j THREADS]",
    "  languages",
    "  init [-o OUTPUT] [-t TEMPLATE] [-l]"]

end TokenFlow.Command
