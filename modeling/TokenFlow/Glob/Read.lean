import TokenFlow.Glob.Symbol

/-!
# Reading a pattern

The second step of reading a pattern arranges its symbols into pieces.  What stands
in braces is collected alternative by alternative while the pieces around it wait.
Two stars make one piece only where they are a whole component of the path; the
slash in front of them then belongs to that piece, so it is taken back.
-/
namespace TokenFlow.Glob

/-- A choice whose brace is open. -/
structure OpenChoice where
  /-- The pieces in front of the brace, the last one first. -/
  outer : List Piece
  /-- The alternatives that are complete, the last one first. -/
  done : List (List Piece) := []

/-- What has been read of a pattern. -/
structure Arrangement where
  /-- The pieces of the alternative at hand, the last one first. -/
  pieces : List Piece := []
  /-- The open choices, the innermost first. -/
  choices : List OpenChoice := []
  /-- The character in front of what is read next. -/
  before : Option Char := none

namespace Arrangement

/-- Appends pieces that end with a character in writing. -/
def add (a : Arrangement) (pieces : List Piece) (last : Char) : Arrangement :=
  { a with pieces := pieces.reverse ++ a.pieces, before := some last }

/-- Replaces the last piece, unless it stands for any number of components itself. -/
def mergeStars (a : Arrangement) (piece : Piece) (last : Char) : Arrangement :=
  match a.pieces with
  | .leading :: _ => { a with before := some last }
  | .trailing :: _ => { a with before := some last }
  | _ :: others => { a with pieces := piece :: others, before := some last }
  | [] => { a with pieces := [piece], before := some last }

/-- Whether two stars read next would be at the start of a component. -/
def atComponent (a : Arrangement) : Bool :=
  a.before == some '/' ||
    (!a.choices.isEmpty && (a.before == some ',' || a.before == some '{'))

/-- Whether a symbol behind two stars ends the alternative at hand. -/
def endsAlternative (a : Arrangement) : Symbol → Bool
  | .plain ',' => !a.choices.isEmpty
  | .plain '}' => !a.choices.isEmpty
  | _ => false

/-- An alternative without any piece that could match something. -/
def isVoid (pieces : List Piece) : Bool :=
  pieces.all fun
    | .choice [] => true
    | _ => false

/-- Closes the alternative at hand and starts the next. -/
def nextAlternative (a : Arrangement) : Arrangement :=
  match a.choices with
  | [] => a.add [.literal ','] ','
  | inner :: others =>
    { pieces := [], choices := { inner with done := a.pieces.reverse :: inner.done } :: others
      before := some ',' }

/-- Closes the innermost choice.  Alternatives that are void are dropped. -/
def closeChoice (a : Arrangement) : Except Fault Arrangement :=
  match a.choices with
  | [] => .error .unopenedChoice
  | inner :: others =>
    let alternatives := (a.pieces.reverse :: inner.done).reverse.filter (!isVoid ·)
    .ok { pieces := .choice alternatives :: inner.outer, choices := others, before := some '}' }

/-- Reads one symbol that is no star. -/
def addSymbol (a : Arrangement) : Symbol → Except Fault Arrangement
  | .plain '?' => .ok (a.add [.any] '?')
  | .plain '{' => .ok { pieces := [], choices := { outer := a.pieces } :: a.choices, before := some '{' }
  | .plain '}' => a.closeChoice
  | .plain ',' => .ok a.nextAlternative
  | .plain c => .ok (a.add [.literal c] c)
  | .escaped c => .ok (a.add [.literal c] c)
  | .set negated ranges => .ok (a.add [.set negated ranges] ']')

/-- Reads the symbols of a pattern. -/
def read (a : Arrangement) : List Symbol → Except Fault Arrangement
  | .plain '*' :: .plain '*' :: .plain '/' :: rest =>
    if a.pieces.isEmpty then read (a.add [.leading] '/') rest
    else if a.atComponent then read (a.mergeStars .between '/') rest
    else read (a.add [.run, .run, .literal '/'] '/') rest
  | .plain '*' :: .plain '*' :: [] =>
    .ok (if a.pieces.isEmpty then a.add [.leading] '*'
      else if a.atComponent then a.mergeStars .trailing '*'
      else a.add [.run, .run] '*')
  | .plain '*' :: .plain '*' :: next :: rest =>
    if !a.pieces.isEmpty && a.atComponent && a.endsAlternative next then
      read (a.mergeStars .trailing '*') (next :: rest)
    else read (a.add [.run, .run] '*') (next :: rest)
  | .plain '*' :: rest => read (a.add [.run] '*') rest
  | symbol :: rest => do read (← a.addSymbol symbol) rest
  | [] => .ok a

end Arrangement

/-- Reads a pattern. -/
def read (pattern : String) : Except Fault (List Piece) := do
  let (symbols, fault) := Symbol.ofPattern pattern
  let a ← Arrangement.read {} symbols
  match fault with
  | some fault => .error fault
  | none => if a.choices.isEmpty then .ok a.pieces.reverse else .error .unclosedChoice

end TokenFlow.Glob
