import TokenFlow.Text.Utf8

/-!
# Paths

A path is a sequence of octets whose pieces stand between strokes, and nothing promises
that the octets are a text.  Empty pieces and the piece `.` lead nowhere, so the names a
path goes through, its `steps`, leave them out.  What a path is shown as stays the way it
was written, with damage marked.
-/
namespace TokenFlow

/-- A path as a file system has it. -/
abbrev Path := List UInt8

/-- What something in a folder is called. -/
abbrev FileName := List UInt8

namespace Path

/-- What stands between the names of a path. -/
def stroke : UInt8 := 0x2F

def dot : UInt8 := 0x2E

/-- What stands for the folder that a path has come to. -/
def here : FileName := [dot]

/-- What stands for the folder around that. -/
def above : FileName := [dot, dot]

/-- The pieces of a path as they are written; always at least one. -/
def pieces : Path → List FileName
  | [] => [[]]
  | b :: bs =>
    if b = stroke then [] :: pieces bs
    else
      match pieces bs with
      | [] => [[b]]
      | p :: ps => (b :: p) :: ps

/-- Whether a piece leads nowhere. -/
def isIdle (piece : FileName) : Bool :=
  piece == [] || piece == here

/-- The names a path goes through. -/
def steps (path : Path) : List FileName :=
  (pieces path).filter (!isIdle ·)

/-- Whether a path starts at the root. -/
def isAbsolute (path : Path) : Bool :=
  path.head? == some stroke

/-- The path of something in a folder. -/
def join (folder name : Path) : Path :=
  if folder == [] || folder.getLast? == some stroke then folder ++ name
  else folder ++ stroke :: name

/-- The path with the given names. -/
def ofSteps (names : List FileName) : Path :=
  [stroke].intercalate names

/-- Whether some names come before others or are the same: name by name in the order of
their octets, and what leads less far first. -/
def comesFirst : List FileName → List FileName → Bool
  | [], _ => true
  | _ :: _, [] => false
  | m :: ms, n :: ns => if m = n then comesFirst ms ns else decide (m < n)

/-- The name of the thing a path leads to, if the path ends in a name. -/
def fileName? (path : Path) : Option FileName :=
  (steps path).getLast?.filter (· != above)

/-- What follows the last dot of a name; a name with no dot but the one it starts with
has no extension. -/
def extensionOf? (name : FileName) : Option (List UInt8) :=
  match name.reverse.dropWhile (· ≠ dot) with
  | [] => none
  | [_] => none
  | _ => some (name.reverse.takeWhile (· ≠ dot)).reverse

/-- The extension of the name a path ends in. -/
def extension? (path : Path) : Option (List UInt8) :=
  (fileName? path).bind extensionOf?

/-- Leaves out the idle pieces at the end, but never the first piece: there the empty
piece stands for the root and a dot for the folder at hand. -/
def trimEnd : List FileName → List FileName
  | [] => []
  | first :: rest => first :: (rest.reverse.dropWhile isIdle).reverse

/-- The path with the given pieces. -/
def ofPieces : List FileName → Path
  | [[]] => [stroke]
  | ps => ofSteps ps

/-- The path of the folder that a path leads into, empty for a single name, and none
for the root. -/
def parent? (path : Path) : Option Path :=
  match trimEnd (pieces path) with
  | [[]] => none
  | ps => some (ofPieces (trimEnd ps.dropLast))

end Path

end TokenFlow
