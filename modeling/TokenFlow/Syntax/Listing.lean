import TokenFlow.Syntax.Node
import TokenFlow.Text.Numeral
import TokenFlow.Text.Utf8

/-!
# Listed trees

A tree can be kept as a text beside its source.  The first line says `clean`, or
`errors` if the source text had errors.  Each further line is a node, in the order in
which nodes begin, a node before its children: `+` or `-` for named or not, the field
or `-` for none, the offsets of its first octet and behind its last one, the number of
its children, and its kind up to the end of the line.
-/
namespace TokenFlow

/-- Cuts a text at the first place of a character. -/
def cutAt (mark : Char) (cs : List Char) : List Char × List Char :=
  (cs.takeWhile (· ≠ mark), (cs.dropWhile (· ≠ mark)).drop 1)

/-- The node in a line of a listing. -/
def Node.Entry.ofLine? (line : String) : Option Node.Entry := do
  let (named, rest) := cutAt ' ' line.toList
  let (field, rest) := cutAt ' ' rest
  let (first, rest) := cutAt ' ' rest
  let (beyond, rest) := cutAt ' ' rest
  let (count, kind) := cutAt ' ' rest
  return {
    kind := String.ofList kind
    named := ← if named = ['+'] then some true else if named = ['-'] then some false else none
    field := if field = ['-'] then none else some (String.ofList field)
    first := ← Numeral.ofDigits? 10 first
    beyond := ← Numeral.ofDigits? 10 beyond
    childCount := ← Numeral.ofDigits? 10 count }

/-- The lines of a text; the last one need not be ended. -/
def linesOf (text : String) : List String :=
  ((text.splitOn "\n").reverse.dropWhile (· == "")).reverse

/-- The tree over a source text that a listing holds. -/
def SyntaxTree.ofListing? (source listing : ByteArray) : Option SyntaxTree := do
  match linesOf (← Utf8.undamaged? listing.toList) with
  | [] => none
  | state :: lines =>
    let hasError ← if state = "clean" then some false else if state = "errors" then some true else none
    let entries ← lines.mapM Node.Entry.ofLine?
    return { root := ← Node.ofEntries? source entries, hasError }

end TokenFlow
