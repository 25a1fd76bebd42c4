import TokenFlow.Text.Numeral

/-!
# Documents of settings

A settings file is written in the block and flow styles of YAML.  What it says is a
tree of scalars, lists and mappings.  A scalar keeps its text as it was written and
whether it stood there plainly: what a plain scalar means is for its reader to say,
and a quoted one is never anything but text.
-/
namespace TokenFlow

/-- What a document says. -/
inductive Yaml where
  | scalar (text : String) (isPlain : Bool)
  | list (items : List Yaml)
  | mapping (entries : List (Yaml × Yaml))

namespace Yaml

/-- Nothing, where something could stand. -/
def blank : Yaml := scalar "" true

/-- Whether nothing stands in the place of a value. -/
def isBlank : Yaml → Bool
  | scalar "" true => true
  | _ => false

/-- The text of a scalar. -/
def text? : Yaml → Option String
  | scalar text _ => some text
  | _ => none

/-- The text of a scalar that stands there plainly. -/
def plainText? : Yaml → Option String
  | scalar text true => some text
  | _ => none

/-- The items of a list; nothing lists nothing. -/
def items? (y : Yaml) : Option (List Yaml) :=
  match y with
  | list items => some items
  | _ => if y.isBlank then some [] else none

/-- The entries of a mapping; nothing maps nothing. -/
def entries? (y : Yaml) : Option (List (Yaml × Yaml)) :=
  match y with
  | mapping entries => some entries
  | _ => if y.isBlank then some [] else none

/-- The truth value that a plain scalar stands for. -/
def bool? (y : Yaml) : Option Bool :=
  y.plainText?.bind fun text =>
    if ["true", "True", "TRUE"].contains text then some true
    else if ["false", "False", "FALSE"].contains text then some false
    else none

/-- The number that a text stands for: decimal without needless zeros in front, or in
another base behind its mark.  A plus may stand in front of it. -/
def readNat? (text : List Char) : Option Nat :=
  match Numeral.dropPlus text with
  | '0' :: 'x' :: digits => Numeral.ofDigits? 16 digits
  | '0' :: 'o' :: digits => Numeral.ofDigits? 8 digits
  | '0' :: 'b' :: digits => Numeral.ofDigits? 2 digits
  | '0' :: _ :: _ => none
  | digits => Numeral.ofDigits? 10 digits

/-- The number below a bound that a plain scalar stands for. -/
def natBelow? (bound : Nat) (y : Yaml) : Option Nat :=
  (y.plainText?.bind fun text => readNat? text.toList).filter (· < bound)

end Yaml

end TokenFlow
