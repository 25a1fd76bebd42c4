import TokenFlow.Yaml.Scalar

/-!
# Reading a document

A block mapping or list consists of everything that starts in the column where its
first key or dash stands; what is indented further belongs to one of its values.  A
list may stand in the column of the key whose value it is.  Flow lists and mappings
are enclosed by brackets and braces, and lines and columns mean nothing inside,
except that a key and its colon stand on one line.  A key that is spelt out behind a
question mark may be anything and have its colon on a line of its own.

Every step down and every step along consumes something or goes one level deeper
into what started at the same place, so the length of the text bounds the recursion;
`fuel` counts it down.  `parse?` provides enough.
-/
namespace TokenFlow.Yaml

/-- What stands between two commas of a flow. -/
inductive FlowEntry where
  | single (value : Yaml)
  | pair (key value : Yaml)

namespace FlowEntry

/-- What is meant in a list: a pair is a mapping of its own. -/
def asItem : FlowEntry → Yaml
  | single value => value
  | pair key value => .mapping [(key, value)]

/-- What is meant in a mapping: a key alone has nothing as its value. -/
def asEntry : FlowEntry → Yaml × Yaml
  | single value => (value, blank)
  | pair key value => (key, value)

end FlowEntry

/-- Whether an entry of a flow ends here. -/
def endsEntry : List Char → Bool
  | c :: _ => c == ',' || c == ']' || c == '}'
  | [] => false

mutual
/-- Reads a list or mapping in brackets or braces, or a scalar. -/
def flow? (inFlow : Bool) (floor : Nat) : Nat → Cursor → Option (Yaml × Cursor)
  | 0, _ => none
  | fuel + 1, c =>
    match c.rest with
    | '[' :: _ => flowList? fuel [] (c.advance 1 false)
    | '{' :: _ => flowMapping? fuel [] (c.advance 1 false)
    | _ => scalar? inFlow floor c

/-- Reads the items of a flow list that follow some that were read, the last one
first. -/
def flowList? : Nat → List Yaml → Cursor → Option (Yaml × Cursor)
  | 0, _, _ => none
  | fuel + 1, items, c =>
    let c := c.skip true
    match c.rest with
    | ']' :: _ => some (.list items.reverse, c.advance 1 false)
    | _ => do
      let (entry, after) ← flowEntry? fuel c
      let items := entry.asItem :: items
      match after.rest with
      | ',' :: _ => flowList? fuel items (after.advance 1 false)
      | ']' :: _ => some (.list items.reverse, after.advance 1 false)
      | _ => none

/-- Reads the entries of a flow mapping that follow some that were read, the last one
first. -/
def flowMapping? : Nat → List (Yaml × Yaml) → Cursor → Option (Yaml × Cursor)
  | 0, _, _ => none
  | fuel + 1, entries, c =>
    let c := c.skip true
    match c.rest with
    | '}' :: _ => some (.mapping entries.reverse, c.advance 1 false)
    | _ => do
      let (entry, after) ← flowEntry? fuel c
      let entries := entry.asEntry :: entries
      match after.rest with
      | ',' :: _ => flowMapping? fuel entries (after.advance 1 false)
      | '}' :: _ => some (.mapping entries.reverse, after.advance 1 false)
      | _ => none

/-- Reads an entry of a flow and moves to what follows it. -/
def flowEntry? : Nat → Cursor → Option (FlowEntry × Cursor)
  | 0, _ => none
  | fuel + 1, c =>
    if c.atKeySign true then do
      let (key, after) ← flowPart? fuel (c.advance 1 false)
      if after.atColon true then
        let (value, after) ← flowPart? fuel (after.advance 1 false)
        return (.pair key value, after)
      else return (.pair key blank, after)
    else if c.atEnd then none
    else do
      let (value, after) ← flow? true 0 fuel c
      let after := after.skip true
      if after.atColon true && after.closesKey c.toMark then
        let (key, after) := (value, after.advance 1 false)
        if (after.skip true).atColon true then none
        else
          let (value, after) ← flowPart? fuel after
          return (.pair key value, after)
      else return (.single value, after)

/-- Reads a key or value of a flow that may be left out, and moves to what follows
it. -/
def flowPart? : Nat → Cursor → Option (Yaml × Cursor)
  | 0, _ => none
  | fuel + 1, c =>
    let c := c.skip true
    if endsEntry c.rest || c.atColon true then some (blank, c)
    else if c.atEnd then none
    else (flow? true 0 fuel c).map fun (value, after) => (value, after.skip true)
end

/-- Reads a key and its colon, which stand on one line. -/
def key? (floor fuel : Nat) (c : Cursor) : Option (Yaml × Cursor) := do
  let (key, after) ← flow? false floor fuel c
  let colon := after.skip false
  if colon.atColon false && colon.closesKey c.toMark then return (key, colon.advance 1 false)
  else none

mutual
/-- Reads a value in a block.  Whatever belongs to it is indented to the floor; only
a list may also stand in the column of the key whose value it is. -/
def node? : Nat → Nat → Option Nat → Cursor → Option (Yaml × Cursor)
  | 0, _, _, _ => none
  | fuel + 1, floor, keyColumn, c =>
    let c := c.skip false
    if c.atEnd then some (blank, c)
    else if c.column < floor then
      -- only a list may stand in the column of its key
      if c.atDash && keyColumn == some c.column then list? fuel c.column [] c
      else some (blank, c)
    else if c.atDash then
      if c.isFresh then list? fuel c.column [] c else none
    else if c.atKeySign false then
      if c.isFresh then mapping? fuel c.column [] c else none
    else do
      let (value, after) ← flow? false floor fuel c
      let next := after.skip false
      if next.atColon false && floor ≤ next.column then
        -- what was read is a key, and the mapping is read from there again
        if c.isFresh then mapping? fuel c.column [] c else none
      else return (value, after)

/-- Reads the items of a list in a column that follow some that were read, the last
one first. -/
def list? : Nat → Nat → List Yaml → Cursor → Option (Yaml × Cursor)
  | 0, _, _, _ => none
  | fuel + 1, column, items, c => do
    let (item, after) ← node? fuel (column + 1) none (c.advance 1 true)
    let next := after.skip false
    if next.atEnd || next.column < column then
      if next.atEnd || next.isFresh then return (.list (item :: items).reverse, next) else none
    else if next.isFresh && next.column == column then
      if next.atDash then list? fuel column (item :: items) next
      else return (.list (item :: items).reverse, next)
    else none

/-- Reads an entry of a mapping in a column. -/
def entry? : Nat → Nat → Cursor → Option ((Yaml × Yaml) × Cursor)
  | 0, _, _ => none
  | fuel + 1, column, c =>
    if c.atKeySign false then do
      let (key, after) ← node? fuel (column + 1) (some column) (c.advance 1 true)
      let next := after.skip false
      if next.isFresh && next.column == column && next.atColon false then
        let (value, after) ← node? fuel (column + 1) (some column) (next.advance 1 true)
        return ((key, value), after)
      else return ((key, blank), after)
    else do
      let (key, after) ← key? (column + 1) fuel c
      let (value, after) ← node? fuel (column + 1) (some column) after
      return ((key, value), after)

/-- Reads the entries of a mapping in a column that follow some that were read, the
last one first. -/
def mapping? : Nat → Nat → List (Yaml × Yaml) → Cursor → Option (Yaml × Cursor)
  | 0, _, _, _ => none
  | fuel + 1, column, entries, c => do
    let (entry, after) ← entry? fuel column c
    let next := after.skip false
    let entries := entry :: entries
    if next.atEnd || (next.isFresh && next.column < column) then
      return (.mapping entries.reverse, next)
    else if next.isFresh && next.column == column && !next.atDash then
      mapping? fuel column entries next
    else none
end

/-- Whether nothing stands behind a document, except perhaps markers of its end. -/
def isFinished : Nat → Cursor → Bool
  | 0, _ => false
  | fuel + 1, c =>
    let c := c.skip false
    match c.rest with
    | [] => true
    | '.' :: _ => c.atEnd && isFinished fuel (c.advance 3 false)
    | _ => false

/-- Reads a text as a document.  A text without any document says nothing. -/
def parse? (text : String) : Option Yaml := do
  if !text.toList.all isPermitted then none
  else
    let chars := unifyBreaks text.toList
    let fuel := 8 * chars.length + 16
    let c := ({ rest := chars } : Cursor).skip false
    match c.rest with
    | [] => return blank
    | first :: _ =>
      if first == '%' && c.column == 0 then none
      else
        let start := if c.atEnd && first == '-' then some (c.advance 3 false)
          else if c.atEnd then none else some c
        let (root, after) ← node? fuel 0 none (← start)
        if isFinished fuel after then return root else none

end TokenFlow.Yaml
