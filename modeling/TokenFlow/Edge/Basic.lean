import TokenFlow.Ascending

/-!
# Data-flow edges

An `Edge` says from which earlier tokens the value of one token is drawn.  Its
sources are kept as two parallel lists, of names and of token numbers, in ascending
order of number and then name and without repetitions; `ofSources` brings any list
of sources into that form, and every edge of a graph is built by it.
-/
namespace TokenFlow

/-- How the value of a token relates to its sources. -/
inductive Relation where
  /-- A copy of a value that was there. -/
  | comesFrom
  /-- The result of an expression over the sources. -/
  | computedFrom
  deriving DecidableEq, Repr

/-- The written name of a relation. -/
def Relation.text : Relation → String
  | comesFrom => "comesFrom"
  | computedFrom => "computedFrom"

/-- A token that feeds another: its name and its number. -/
structure Source where
  name : String
  index : Nat
  deriving DecidableEq, Repr

namespace Source

/-- Sources are ordered by number, and by name where the numbers agree. -/
instance : LT Source :=
  ⟨fun a b => a.index < b.index ∨ (a.index = b.index ∧ a.name < b.name)⟩

instance : DecidableLT Source :=
  fun a b => inferInstanceAs (Decidable (a.index < b.index ∨ (a.index = b.index ∧ a.name < b.name)))

/-- The sources that stand for the live definitions of a name. -/
def ofDefs (name : String) (defs : List Nat) : List Source :=
  defs.map (⟨name, ·⟩)

/-- The written form of a source. -/
def text (s : Source) : String :=
  s!"{s.name}@{s.index}"

end Source

/-- The value of the token `index`, named `name`, is drawn from the sources. -/
structure Edge where
  name : String
  index : Nat
  relation : Relation
  sourceNames : List String
  sourceIndices : List Nat
  deriving DecidableEq, Repr

namespace Edge

/-- The edge from a set of sources, whatever the order in which they are listed. -/
def ofSources (name : String) (index : Nat) (relation : Relation) (sources : List Source) :
    Edge :=
  let ordered := Ascending.ofList sources
  ⟨name, index, relation, ordered.map (·.name), ordered.map (·.index)⟩

/-- The sources, name by name and number by number. -/
def sources (e : Edge) : List Source :=
  List.zipWith Source.mk e.sourceNames e.sourceIndices

/-- Whether the edge says anything. -/
def hasSources (e : Edge) : Bool :=
  !e.sourceIndices.isEmpty

/-- Whether a source has this name. -/
def hasSourceNamed (e : Edge) (name : String) : Bool :=
  e.sourceNames.contains name

/-- The written form: `name@index relation [name@index, …]`. -/
def text (e : Edge) : String :=
  s!"{e.name}@{e.index} {e.relation.text} [" ++
    ", ".intercalate (e.sources.map Source.text) ++ "]"

end Edge

end TokenFlow
