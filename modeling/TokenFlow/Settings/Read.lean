import TokenFlow.Settings.Basic
import TokenFlow.Text.Numeral

/-!
# Settings from a file

A settings file maps the names of settings to their values.  A name that is not
known is passed over; a name that is known may stand there only once.  Texts take
any scalar as it is written, numbers and truth values only plain ones.

How a mapping is written down is not for the settings to say: they are handed a way to
read documents, `Documents`.
-/
namespace TokenFlow

/-- A way to read documents. -/
structure Documents where
  /-- What a document says. -/
  Value : Type
  /-- What the document in a text says, if there is one. -/
  read? : String → Option Value
  /-- The entries of a mapping. -/
  entries? : Value → Option (List (Value × Value))
  /-- The items of a list. -/
  items? : Value → Option (List Value)
  /-- A scalar as it is written. -/
  text? : Value → Option String
  /-- The truth value that a scalar stands for. -/
  bool? : Value → Option Bool
  /-- The number below a bound that a scalar stands for. -/
  natBelow? : Nat → Value → Option Nat

namespace Settings

variable (documents : Documents)

/-- The texts of a list of scalars. -/
def texts? (y : documents.Value) : Option (List String) :=
  (documents.items? y).bind fun items => items.mapM documents.text?

/-- The settings with one entry of a file taken over. -/
def take? (s : Settings) (name : String) (value : documents.Value) : Option Settings :=
  match name with
  | "version" => (documents.text? value).map fun v => { s with version := v }
  | "name" => (documents.text? value).map fun v => { s with name := v }
  | "max_depth" =>
    (documents.natBelow? Numeral.wordBound value).map fun v => { s with maxDepth := v }
  | "dedupe" => (documents.bool? value).map fun v => { s with dedupe := v }
  | "include_state" => (documents.bool? value).map fun v => { s with includeState := v }
  | "include_tokens" => (documents.bool? value).map fun v => { s with includeTokens := v }
  | "languages" => (texts? documents value).map fun v => { s with languages := v }
  | "excluded_paths" => (texts? documents value).map fun v => { s with excludedPaths := v }
  | "include_hidden" => (documents.bool? value).map fun v => { s with includeHidden := v }
  | _ => some s

/-- The names of the settings. -/
def names : List String :=
  ["version", "name", "max_depth", "dedupe", "include_state", "include_tokens", "languages",
    "excluded_paths", "include_hidden"]

/-- Takes over entries one after the other.  `seen` are the names met before. -/
def takeAll? (s : Settings) (seen : List String) :
    List (documents.Value × documents.Value) → Option Settings
  | [] => some s
  | (key, value) :: rest => do
    let name ← documents.text? key
    if names.contains name && seen.contains name then none
    else takeAll? (← take? documents s name value) (name :: seen) rest

/-- The settings that a document gives. -/
def ofDocument? (document : documents.Value) : Option Settings :=
  (documents.entries? document).bind (takeAll? documents {} [])

/-- The settings in a file. -/
def ofOctets? (octets : List UInt8) : Option Settings := do
  ofDocument? documents (← documents.read? (← Utf8.undamaged? octets))

end Settings

end TokenFlow
