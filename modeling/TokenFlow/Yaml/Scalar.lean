import TokenFlow.Yaml.Basic
import TokenFlow.Yaml.Cursor

/-!
# Scalars of a document

A scalar is written plainly or in quotes, and may go over several lines.  Blanks
between two of its characters are part of it if they stand on one line; around line
breaks they are not, one break counts as a space, and of several all but the first
are kept.
-/
namespace TokenFlow.Yaml

/-- What stands between two characters of a scalar. -/
inductive Gap where
  /-- Blanks on one line, the last one first. -/
  | blanks (cs : List Char)
  /-- The first line break and those behind it, the last one first. -/
  | breaks (first : Option Char) (others : List Char)

namespace Gap

/-- The part of a scalar that a gap amounts to, the last character first. -/
def folded : Gap → List Char
  | blanks cs => cs
  | breaks (some '\n') [] => [' ']
  | breaks (some '\n') others => others
  | breaks (some c) others => others ++ [c]
  | breaks none others => others

/-- Whether a line ends in the gap. -/
def isMultiline : Gap → Bool
  | blanks _ => false
  | breaks _ _ => true

/-- Whether there is anything in the gap. -/
def isEmpty : Gap → Bool
  | blanks cs => cs.isEmpty
  | breaks _ _ => false

/-- Adds a blank. -/
def addBlank (c : Char) : Gap → Gap
  | blanks cs => blanks (c :: cs)
  | g => g

/-- Adds a line break. -/
def addBreak (c : Char) : Gap → Gap
  | blanks _ => breaks (some c) []
  | breaks first others => breaks first (c :: others)

end Gap

/-- Characters that a plain scalar cannot start with. -/
def indicators : List Char :=
  ['-', '?', ':', ',', '[', ']', '{', '}', '#', '&', '*', '!', '|', '>', '\'', '"', '%', '@', '`']

/-- Brackets, braces and commas, which always mean something inside a flow. -/
def flowIndicators : List Char := [',', '[', ']', '{', '}']

/-- Whether a plain scalar starts here. -/
def startsPlain (inFlow : Bool) : List Char → Bool
  | [] => false
  | c :: rest =>
    !isGap [c] &&
      (!indicators.contains c || (c == '-' && !isGap rest) ||
        (!inFlow && (c == '?' || c == ':') && !isGap rest))

/-- Whether the colon at the start of some characters ends a plain scalar. -/
def endsAtColon : List Char → Bool
  | ':' :: rest => isGap rest
  | _ => false

/-- Whether a colon stands where no plain scalar of a flow may have one. -/
def hasStrayColon : List Char → Bool
  | ':' :: c :: _ => c == '?' || flowIndicators.contains c
  | _ => false

/-- Reads a plain scalar from within.  `text` is what was read of it, the last
character first, and `gap` is what stands behind that. -/
def plainFrom (inFlow : Bool) (floor : Nat) (text : List Char) (gap : Gap) (m : Mark) :
    List Char → Option (String × Cursor)
  | [] => some (String.ofList text.reverse, ⟨m, [], gap.isMultiline⟩)
  | c :: rest =>
    if isSpace c then
      if c == '\t' && gap.isMultiline && m.column < floor then none
      else plainFrom inFlow floor text (gap.addBlank c) (m.past c) rest
    else if isBreak c then plainFrom inFlow floor text (gap.addBreak c) (m.pastBreak c) rest
    else
      let stop := some (String.ofList text.reverse, (⟨m, c :: rest, gap.isMultiline⟩ : Cursor))
      if gap.isMultiline && !inFlow && m.column < floor then stop
      else if m.column == 0 && startsWithMarker (c :: rest) then stop
      else if c == '#' && !gap.isEmpty then stop
      else if inFlow && hasStrayColon (c :: rest) then none
      else if endsAtColon (c :: rest) || (inFlow && flowIndicators.contains c) then stop
      else plainFrom inFlow floor (c :: gap.folded ++ text) (.blanks []) (m.past c) rest

/-- Reads a scalar in single quotes from within.  A quote inside is written twice. -/
def singleFrom (text : List Char) (gap : Gap) (m : Mark) :
    List Char → Option (String × Cursor)
  | [] => none
  | '\'' :: '\'' :: rest =>
    singleFrom ('\'' :: gap.folded ++ text) (.blanks []) ((m.past '\'').past '\'') rest
  | c :: rest =>
    if c == '\'' then
      some (String.ofList (gap.folded ++ text).reverse, ⟨m.past c, rest, false⟩)
    else if m.column == 0 && startsWithMarker (c :: rest) then none
    else if isSpace c then singleFrom text (gap.addBlank c) (m.past c) rest
    else if isBreak c then singleFrom text (gap.addBreak c) (m.pastBreak c) rest
    else singleFrom (c :: gap.folded ++ text) (.blanks []) (m.past c) rest

/-- The character that a backslash and one more character stand for. -/
def escape? : Char → Option Char
  | '0' => some '\x00'
  | 'a' => some '\x07'
  | 'b' => some '\x08'
  | 't' => some '\t'
  | '\t' => some '\t'
  | 'n' => some '\n'
  | 'v' => some '\x0b'
  | 'f' => some '\x0c'
  | 'r' => some '\r'
  | 'e' => some '\x1b'
  | ' ' => some ' '
  | '"' => some '"'
  | '/' => some '/'
  | '\\' => some '\\'
  | 'N' => some '\u0085'
  | '_' => some '\u00a0'
  | 'L' => some '\u2028'
  | 'P' => some '\u2029'
  | _ => none

/-- How many hexadecimal digits follow a backslash and this character. -/
def escapeDigits? : Char → Option Nat
  | 'x' => some 2
  | 'u' => some 4
  | 'U' => some 8
  | _ => none

/-- What reading a scalar in double quotes is in the middle of. -/
inductive Escape where
  | outside
  | behindBackslash
  /-- So many more digits, behind some that make this number. -/
  | digits (more value : Nat)

/-- The character with a number, if there is one. -/
def charOf? (n : Nat) : Option Char :=
  if h : n.isValidChar then some (Char.ofNatAux n h) else none

/-- Reads a scalar in double quotes from within.  A backslash at the end of a line
joins the lines without a space. -/
def doubleFrom (state : Escape) (text : List Char) (gap : Gap) (m : Mark) :
    List Char → Option (String × Cursor)
  | [] => none
  | c :: rest =>
    match state with
    | .behindBackslash =>
      if isBreak c then doubleFrom .outside text (.breaks none []) (m.pastBreak c) rest
      else
        match escape? c, escapeDigits? c with
        | some e, _ => doubleFrom .outside (e :: text) (.blanks []) (m.past c) rest
        | none, some n => doubleFrom (.digits n 0) text (.blanks []) (m.past c) rest
        | none, none => none
    | .digits more value =>
      match Numeral.digit? 16 c with
      | none => none
      | some d =>
        let value := value * 16 + d
        if more ≤ 1 then
          match charOf? value with
          | none => none
          | some e => doubleFrom .outside (e :: text) (.blanks []) (m.past c) rest
        else doubleFrom (.digits (more - 1) value) text (.blanks []) (m.past c) rest
    | .outside =>
      if c == '"' then
        some (String.ofList (gap.folded ++ text).reverse, ⟨m.past c, rest, false⟩)
      else if c == '\\' then
        doubleFrom .behindBackslash (gap.folded ++ text) (.blanks []) (m.past c) rest
      else if m.column == 0 && startsWithMarker (c :: rest) then none
      else if isSpace c then doubleFrom .outside text (gap.addBlank c) (m.past c) rest
      else if isBreak c then doubleFrom .outside text (gap.addBreak c) (m.pastBreak c) rest
      else doubleFrom .outside (c :: gap.folded ++ text) (.blanks []) (m.past c) rest

/-- Reads the scalar that starts here.  A plain scalar in a block goes on in further
lines as long as they are indented to the floor. -/
def scalar? (inFlow : Bool) (floor : Nat) (c : Cursor) : Option (Yaml × Cursor) :=
  match c.rest with
  | '\'' :: rest =>
    (singleFrom [] (.blanks []) (c.past '\'') rest).map fun (text, after) =>
      (.scalar text false, after)
  | '"' :: rest =>
    (doubleFrom .outside [] (.blanks []) (c.past '"') rest).map fun (text, after) =>
      (.scalar text false, after)
  | _ =>
    if startsPlain inFlow c.rest then
      (plainFrom inFlow floor [] (.blanks []) c.toMark c.rest).map fun (text, after) =>
        (.scalar text true, after)
    else none

end TokenFlow.Yaml
