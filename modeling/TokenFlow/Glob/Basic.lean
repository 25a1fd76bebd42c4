/-!
# Patterns of paths

A glob is a sequence of pieces, each of which stands for some stretches of a path.
In writing, `?` is any octet and `*` any stretch; `**` as a whole component of a
path is any number of components; brackets hold a set and braces hold alternatives.
A backslash takes the character behind it literally.
-/
namespace TokenFlow.Glob

/-- A piece of a pattern. -/
inductive Piece where
  /-- The character itself. -/
  | literal (c : Char)
  /-- Any octet. -/
  | any
  /-- Any stretch. -/
  | run
  /-- Nothing, or any stretch that ends a component: `**/` at the start. -/
  | leading
  /-- A slash and any stretch behind it: `/**` at the end. -/
  | trailing
  /-- A slash, or any stretch between two slashes with them: `/**/`. -/
  | between
  /-- A character in one of the ranges, or in none of them. -/
  | set (negated : Bool) (ranges : List (Char × Char))
  /-- One of several patterns; nothing if there are none. -/
  | choice (alternatives : List (List Piece))

/-- Why a pattern cannot be read. -/
inductive Fault where
  /-- A bracket is not closed. -/
  | unclosedSet
  /-- A range ends before it starts. -/
  | emptyRange (first last : Char)
  /-- A brace is not closed. -/
  | unclosedChoice
  /-- A brace closes nothing. -/
  | unopenedChoice
  /-- A backslash has nothing behind it. -/
  | danglingEscape
  deriving DecidableEq, Repr

/-- What is said of a pattern that cannot be read. -/
def Fault.message (pattern : String) (fault : Fault) : String :=
  "error parsing glob '" ++ pattern ++ "': " ++
    match fault with
    | unclosedSet => "unclosed character class; missing ']'"
    | emptyRange first last => s!"invalid range; '{first}' > '{last}'"
    | unclosedChoice =>
      "unclosed alternate group; missing '\x7d' (maybe escape '\x7b' with '[\x7b]'?)"
    | unopenedChoice =>
      "unopened alternate group; missing '\x7b' (maybe escape '\x7d' with '[\x7d]'?)"
    | danglingEscape => "dangling '\\'"

end TokenFlow.Glob
