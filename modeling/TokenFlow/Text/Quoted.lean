import TokenFlow.Text.Numeral
import TokenFlow.Text.Unseen

/-!
# Quoted text

In messages a text that somebody wrote is put in double quotes, with a backslash
before a quote or a backslash, and with the characters that cannot be seen written
as escapes.
-/
namespace TokenFlow.Text

/-- A character as it is written between quotes. -/
def escaped (c : Char) : String :=
  if c == '"' then "\\\""
  else if c == '\\' then "\\\\"
  else if c == '\n' then "\\n"
  else if c == '\r' then "\\r"
  else if c == '\t' then "\\t"
  else if c == '\x00' then "\\0"
  else if isUnseen c then "\\u\x7b" ++ Numeral.hex c.toNat ++ "\x7d"
  else String.singleton c

/-- A text in quotes. -/
def quoted (s : String) : String :=
  "\"" ++ String.join (s.toList.map escaped) ++ "\""

end TokenFlow.Text
