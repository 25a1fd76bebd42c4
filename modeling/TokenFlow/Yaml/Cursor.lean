/-!
# Moving through a document

A `Cursor` is a place in a document: the characters behind it, where it stands, and
whether a key may start here, as it may at the start of a line and behind the dash
of an item.  `skip` moves over blanks, comments and line breaks to whatever comes
next.  A tab never counts as indentation, so where a key may start `skip` stops in
front of it.  The mark of the byte order may start any line; it says nothing, but
takes up a column.
-/
namespace TokenFlow.Yaml

/-- Where a character stands. -/
structure Mark where
  line : Nat := 0
  column : Nat := 0
  /-- How many octets stand in front of it. -/
  offset : Nat := 0

/-- A place in a document. -/
structure Cursor extends Mark where
  rest : List Char
  /-- Whether a key may start here. -/
  isFresh : Bool := true

/-- A space or a tab. -/
def isSpace (c : Char) : Bool :=
  c == ' ' || c == '\t'

/-- A character that ends a line. -/
def isBreak (c : Char) : Bool :=
  c == '\n' || c == '\u2028' || c == '\u2029'

/-- Whether nothing but a blank can come next. -/
def isGap : List Char → Bool
  | [] => true
  | c :: _ => isSpace c || isBreak c

/-- Whether a document may contain a character. -/
def isPermitted (c : Char) : Bool :=
  let n := c.toNat
  n == 0x9 || n == 0xA || n == 0xD || (0x20 ≤ n && n ≤ 0x7E) || n == 0x85 ||
    (0xA0 ≤ n && n ≤ 0xFFFD) || 0x10000 ≤ n

/-- Writes all line breaks in one way. -/
def unifyBreaks : List Char → List Char
  | '\r' :: '\n' :: rest => '\n' :: unifyBreaks rest
  | c :: rest => (if c == '\r' || c == '\u0085' then '\n' else c) :: unifyBreaks rest
  | [] => []

/-- Whether a line starts with the marker that starts or ends a document. -/
def startsWithMarker : List Char → Bool
  | '-' :: '-' :: '-' :: rest => isGap rest
  | '.' :: '.' :: '.' :: rest => isGap rest
  | _ => false

namespace Mark

/-- The place behind a character within a line. -/
def past (m : Mark) (c : Char) : Mark :=
  { m with column := m.column + 1, offset := m.offset + c.utf8Size }

/-- The place behind a line break. -/
def pastBreak (m : Mark) (c : Char) : Mark :=
  { line := m.line + 1, column := 0, offset := m.offset + c.utf8Size }

/-- How many octets of a line a key may take up, with the blanks behind it. -/
def keyLimit : Nat := 1024

/-- Whether a colon here can belong to a key that starts at another place. -/
def closesKey (colon key : Mark) : Bool :=
  colon.line == key.line && colon.offset ≤ key.offset + keyLimit

end Mark

namespace Cursor

/-- Whether a document ends here. -/
def atEnd (c : Cursor) : Bool :=
  c.rest.isEmpty || (c.column == 0 && startsWithMarker c.rest)

/-- Moves over indicators, which take one octet each. -/
def advance (c : Cursor) (n : Nat) (isFresh : Bool) : Cursor :=
  { c with rest := c.rest.drop n, column := c.column + n, offset := c.offset + n, isFresh }

/-- Moves over what says nothing. -/
def skipFrom (inFlow inComment : Bool) (m : Mark) (isFresh : Bool) : List Char → Cursor
  | [] => ⟨m, [], isFresh⟩
  | c :: rest =>
    if isBreak c then skipFrom inFlow false (m.pastBreak c) (isFresh || !inFlow) rest
    else if inComment || c == ' ' || (c == '\t' && (inFlow || !isFresh)) ||
        (c == '\uFEFF' && m.column == 0) then
      skipFrom inFlow inComment (m.past c) isFresh rest
    else if c == '#' then skipFrom inFlow true (m.past c) isFresh rest
    else ⟨m, c :: rest, isFresh⟩

/-- Moves over blanks, comments and line breaks. -/
def skip (c : Cursor) (inFlow : Bool) : Cursor :=
  skipFrom inFlow false c.toMark c.isFresh c.rest

/-- Whether the dash of an item stands here. -/
def atDash (c : Cursor) : Bool :=
  match c.rest with
  | '-' :: rest => isGap rest
  | _ => false

/-- Whether the sign in front of a key that is spelt out stands here. -/
def atKeySign (c : Cursor) (inFlow : Bool) : Bool :=
  match c.rest with
  | '?' :: rest => inFlow || isGap rest
  | _ => false

/-- Whether the colon behind a key stands here. -/
def atColon (c : Cursor) (inFlow : Bool) : Bool :=
  match c.rest with
  | ':' :: rest => inFlow || isGap rest
  | _ => false

end Cursor

end TokenFlow.Yaml
