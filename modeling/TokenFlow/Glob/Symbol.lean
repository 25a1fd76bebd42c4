import TokenFlow.Glob.Basic

/-!
# The symbols of a pattern

The first step of reading a pattern resolves what one character after another means
by itself: backslashes and bracketed sets become symbols, and of the characters left
it is known that they are written plainly.  Reading stops at the first fault, which
is handed on with the symbols in front of it: a fault in their arrangement comes
first.
-/
namespace TokenFlow.Glob

/-- A symbol of a pattern. -/
inductive Symbol where
  /-- A character written plainly. -/
  | plain (c : Char)
  /-- A character behind a backslash. -/
  | escaped (c : Char)
  /-- A bracketed set. -/
  | set (negated : Bool) (ranges : List (Char × Char))

namespace Symbol

/-- A set that is being read. -/
structure SetReading where
  negated : Bool := false
  /-- The ranges read so far, the last one first. -/
  ranges : List (Char × Char) := []
  /-- Whether a sign of negation may still come. -/
  atSign : Bool := true
  /-- Whether the next character extends the last range. -/
  inRange : Bool := false

/-- Reads a character of a set other than the bracket that closes it. -/
def SetReading.add (r : SetReading) (c : Char) : Except Fault SetReading :=
  if r.atSign && (c == '!' || c == '^') then
    .ok { r with negated := true, atSign := false }
  else
    let r := { r with atSign := false }
    match r.inRange, r.ranges with
    | true, (first, _) :: others =>
      if c < first then .error (.emptyRange first c)
      else .ok { r with ranges := (first, c) :: others, inRange := false }
    | _, [] => .ok { r with ranges := [(c, c)] }
    | _, ranges =>
      if c == '-' then .ok { r with inRange := true }
      else .ok { r with ranges := (c, c) :: ranges }

/-- The symbol of a set that is closed.  A dash in front of the bracket stands for
itself. -/
def SetReading.close (r : SetReading) : Symbol :=
  .set r.negated (if r.inRange then ('-', '-') :: r.ranges else r.ranges).reverse

/-- What reading is in the middle of. -/
inductive Mode where
  | between
  | behindBackslash
  | inSet (r : SetReading)

/-- The symbols of some characters, up to the first fault. -/
def ofCharsIn : Mode → List Char → List Symbol × Option Fault
  | .between, [] => ([], none)
  | .behindBackslash, [] => ([], some .danglingEscape)
  | .inSet _, [] => ([], some .unclosedSet)
  | .between, c :: cs =>
    if c == '\\' then ofCharsIn .behindBackslash cs
    else if c == '[' then ofCharsIn (.inSet {}) cs
    else
      let (symbols, fault) := ofCharsIn .between cs
      (.plain c :: symbols, fault)
  | .behindBackslash, c :: cs =>
    let (symbols, fault) := ofCharsIn .between cs
    (.escaped c :: symbols, fault)
  | .inSet r, c :: cs =>
    if c == ']' && !r.ranges.isEmpty then
      let (symbols, fault) := ofCharsIn .between cs
      (r.close :: symbols, fault)
    else
      match r.add c with
      | .ok r => ofCharsIn (.inSet r) cs
      | .error fault => ([], some fault)

/-- The symbols of a pattern, up to the first fault. -/
def ofPattern (pattern : String) : List Symbol × Option Fault :=
  ofCharsIn .between pattern.toList

/-- The character that a symbol ends with in writing. -/
def lastChar : Symbol → Char
  | plain c => c
  | escaped c => c
  | set _ _ => ']'

end Symbol

end TokenFlow.Glob
