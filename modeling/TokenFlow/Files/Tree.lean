import TokenFlow.Files.Path

/-!
# Files and folders

A `FileTree` is a file with its content, a folder with its entries, or something else
that has a name there.  A list of names leads from a folder to what lies below it
(`at?`), and `put` places something at the end of such a list.
-/
namespace TokenFlow

/-- What there can be at a path, with everything in it. -/
inductive FileTree where
  | file (content : ByteArray)
  | folder (entries : List (FileName × FileTree))
  /-- Neither a file nor a folder: a socket, say. -/
  | special

namespace FileTree

def isFolder : FileTree → Bool
  | folder _ => true
  | _ => false

/-- The entries of a folder; nothing else has any. -/
def entries : FileTree → List (FileName × FileTree)
  | folder entries => entries
  | _ => []

/-- What a list of names leads to. -/
def at? : FileTree → List FileName → Option FileTree
  | tree, [] => some tree
  | tree, name :: names => (tree.entries.lookup name).bind (·.at? names)

/-- Places an entry in a folder, in place of the one with its name. -/
def putEntry (name : FileName) (tree : FileTree) :
    List (FileName × FileTree) → List (FileName × FileTree)
  | [] => [(name, tree)]
  | (key, old) :: rest =>
    if key = name then (name, tree) :: rest else (key, old) :: putEntry name tree rest

/-- Places something where a list of names leads, and folders on the way to it. -/
def put : FileTree → List FileName → FileTree → FileTree
  | _, [], new => new
  | tree, name :: names, new =>
    let below := (tree.entries.lookup name).getD (folder [])
    folder (putEntry name (put below names new) tree.entries)

mutual
/-- All files of a tree with the names that lead to them. -/
def files : FileTree → List (List FileName × ByteArray)
  | file content => [([], content)]
  | folder entries => filesIn entries
  | special => []

/-- The files in the entries of a folder. -/
def filesIn : List (FileName × FileTree) → List (List FileName × ByteArray)
  | [] => []
  | (name, tree) :: rest => tree.files.map (fun (names, c) => (name :: names, c)) ++ filesIn rest
end

end FileTree

end TokenFlow
