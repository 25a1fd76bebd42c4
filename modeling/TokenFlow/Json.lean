import TokenFlow.Text.Numeral

/-!
# JSON

A `Json` value is written either in one line without blanks (`compact`) or over
several lines with two blanks for each level (`pretty`).  The fields of an object keep
their order, and what is empty is written without a break in both forms.
-/
namespace TokenFlow

/-- A JSON value, as far as reports need them. -/
inductive Json where
  | bool (value : Bool)
  | number (value : Nat)
  | text (value : String)
  | list (items : List Json)
  | object (fields : List (String × Json))

namespace Json

/-- A character as it is written in a text: marks and control characters are written
as escapes, all others as they are. -/
def escaped (c : Char) : String :=
  if c == '"' then "\\\""
  else if c == '\\' then "\\\\"
  else if c == '\x08' then "\\b"
  else if c == '\x0c' then "\\f"
  else if c == '\n' then "\\n"
  else if c == '\r' then "\\r"
  else if c == '\t' then "\\t"
  else if c.toNat < 0x10 then "\\u000" ++ Numeral.hex c.toNat
  else if c.toNat < 0x20 then "\\u00" ++ Numeral.hex c.toNat
  else String.singleton c

/-- A text in quotes. -/
def quoted (s : String) : String :=
  "\"" ++ String.join (s.toList.map escaped) ++ "\""

mutual
/-- A value in one line. -/
def compact : Json → String
  | bool value => if value then "true" else "false"
  | number value => Nat.repr value
  | text value => quoted value
  | list items => "[" ++ ",".intercalate (compactItems items) ++ "]"
  | object fields => "\x7b" ++ ",".intercalate (compactFields fields) ++ "\x7d"

def compactItems : List Json → List String
  | [] => []
  | item :: rest => item.compact :: compactItems rest

def compactFields : List (String × Json) → List String
  | [] => []
  | (name, value) :: rest => (quoted name ++ ":" ++ value.compact) :: compactFields rest
end

/-- Parts between an opening and a closing mark, each in a line of its own. -/
def block (indent opening closing : String) : List String → String
  | [] => opening ++ closing
  | parts =>
    let inner := indent ++ "  "
    opening ++ "\n" ++ inner ++ (",\n" ++ inner).intercalate parts ++ "\n" ++ indent ++ closing

mutual
/-- A value over several lines, where the line it starts in begins with `indent`. -/
def prettyFrom (indent : String) : Json → String
  | bool value => if value then "true" else "false"
  | number value => Nat.repr value
  | text value => quoted value
  | list items => block indent "[" "]" (prettyItems (indent ++ "  ") items)
  | object fields => block indent "\x7b" "\x7d" (prettyFields (indent ++ "  ") fields)

def prettyItems (indent : String) : List Json → List String
  | [] => []
  | item :: rest => item.prettyFrom indent :: prettyItems indent rest

def prettyFields (indent : String) : List (String × Json) → List String
  | [] => []
  | (name, value) :: rest =>
    (quoted name ++ ": " ++ value.prettyFrom indent) :: prettyFields indent rest
end

/-- A value over several lines. -/
def pretty (value : Json) : String :=
  value.prettyFrom ""

end Json

end TokenFlow
