import TokenFlow.Language.Python
import TokenFlow.Language.Java
import TokenFlow.Language.CSharp
import TokenFlow.Language.JavaScript
import TokenFlow.Language.Php
import TokenFlow.Language.Ruby
import TokenFlow.Language.Go
import TokenFlow.Text.Blank

/-!
# The languages

A `Tag` stands for one of the supported languages.  People write a tag in several
ways: blank characters around it and the case of ASCII letters do not matter, and
some languages have other names beside the one they are known under.
-/
namespace TokenFlow

/-- The supported languages. -/
inductive Tag where
  | python
  | java
  | cSharp
  | javaScript
  | php
  | ruby
  | go
  deriving DecidableEq, Repr

/-- No language goes by the name that was given. -/
structure UnknownLanguage where
  /-- The name, as it was given. -/
  given : String
  deriving DecidableEq, Repr

/-- What is said of a name that no language goes by. -/
def UnknownLanguage.message (e : UnknownLanguage) : String :=
  "unsupported language: " ++ e.given

namespace Tag

/-- The languages in the order in which they are listed. -/
def all : List Tag := [python, java, cSharp, javaScript, php, ruby, go]

/-- No language is left out of the list. -/
theorem mem_all (t : Tag) : t ∈ all := by
  cases t <;> decide

/-- The table of a language. -/
def language : Tag → Language
  | python => Language.python
  | java => Language.java
  | cSharp => Language.cSharp
  | javaScript => Language.javaScript
  | php => Language.php
  | ruby => Language.ruby
  | go => Language.go

/-- The name a language is known under. -/
def name (t : Tag) : String := t.language.name

/-- The other names of a language. -/
def aliases : Tag → List String
  | python => ["py"]
  | java => []
  | cSharp => ["c-sharp", "csharp", "cs"]
  | javaScript => ["js"]
  | php => []
  | ruby => ["rb"]
  | go => ["golang"]

/-- The language that a name stands for. -/
def ofName (given : String) : Except UnknownLanguage Tag :=
  let plain := (Text.trim given).map Char.toLower
  match all.find? fun t => t.name == plain || t.aliases.contains plain with
  | some t => .ok t
  | none => .error ⟨given⟩

/-- A language goes by the name it is known under. -/
theorem ofName_name (t : Tag) : ofName t.name = .ok t := by
  have hfound : (all.find? fun u => u.name == (Text.trim t.name).map Char.toLower ||
      u.aliases.contains ((Text.trim t.name).map Char.toLower)) = some t := by
    cases t <;> decide +kernel
  rw [ofName, hfound]

/-- The language of the files with an extension, given without its dot. -/
def ofExtension? (extension : String) : Option Tag :=
  all.find? fun t => t.language.handlesExtension extension

/-- The extensions of all languages, in the order of the languages. -/
def extensions : List String :=
  all.flatMap (·.language.extensions)

end Tag

end TokenFlow
