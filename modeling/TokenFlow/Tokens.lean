import TokenFlow.Language.Table
import TokenFlow.Text.Utf8

/-!
# The tokens of a source file

`Tokens` is the sequence of tokens of a file, each with its text and the span under
which it is found again.  The number of a token is its place in the sequence and is
stored nowhere else, and no two tokens have the same span, so a span leads to one
token and its number leads back to it.

`ofTree` takes the sequence from a tree: the leaves from left to right, where a node
of an atomic kind counts as a leaf, a comment and everything in it is left out, and
so is a leaf without text.
-/
namespace TokenFlow

/-- One token of a sequence. -/
structure Token where
  /-- Its place in the sequence. -/
  index : Nat
  text : String
  span : Span
  deriving DecidableEq, Repr

/-- A sequence of tokens with distinct spans. -/
structure Tokens where
  entries : List (Span × String)
  distinct : (entries.map Prod.fst).Nodup

namespace Tokens

/-- No tokens. -/
def empty : Tokens := ⟨[], List.nodup_nil⟩

def size (t : Tokens) : Nat := t.entries.length

def isEmpty (t : Tokens) : Bool := t.entries.isEmpty

/-- Whether some token has this number. -/
def hasIndex (t : Tokens) (index : Nat) : Bool :=
  index < t.size

/-- The token with a number. -/
def token? (t : Tokens) (index : Nat) : Option Token :=
  t.entries[index]?.map fun (span, text) => { index, text, span }

/-- The token with a span. -/
def find? (t : Tokens) (span : Span) : Option Token :=
  (t.entries.findIdx? (·.1 == span)).bind t.token?

/-- All tokens in order. -/
def toList (t : Tokens) : List Token :=
  t.entries.zipIdx.map fun ((span, text), index) => { index, text, span }

/-- The texts of all tokens in order. -/
def texts (t : Tokens) : List String :=
  t.entries.map Prod.snd

/-- Appends a token and answers its number.  Where a token has the span already,
the sequence stays as it is and there is no number to answer. -/
def push (t : Tokens) (span : Span) (text : String) : Option Nat × Tokens :=
  if h : span ∈ t.entries.map Prod.fst then (none, t)
  else
    (some t.size,
      { entries := t.entries ++ [(span, text)]
        distinct := by
          rw [List.map_append, List.nodup_append]
          refine ⟨t.distinct, List.pairwise_singleton _ _, ?_⟩
          intro a ha b hb hab
          rw [List.map_cons, List.map_nil, List.mem_singleton] at hb
          rw [hab, hb] at ha
          exact h ha })

/-- The sequence of some texts with their spans; of entries with one span the first
counts. -/
def ofList (entries : List (Span × String)) : Tokens :=
  entries.foldl (fun t (span, text) => (t.push span text).2) empty

end Tokens

namespace Language

mutual
/-- The nodes under a node that are tokens with text, from left to right. -/
def leaves (l : Language) : Node → List Node
  | ⟨number, kind, named, field, first, beyond, span, children⟩ =>
    if l.isComment kind then []
    else if children.isEmpty || l.isAtom kind then
      if span.isEmpty then []
      else [⟨number, kind, named, field, first, beyond, span, children⟩]
    else l.leavesOfAll children

/-- The leaves under several nodes. -/
def leavesOfAll (l : Language) : List Node → List Node
  | [] => []
  | n :: ns => l.leaves n ++ l.leavesOfAll ns
end

end Language

/-- The tokens of a tree over its source text. -/
def Tokens.ofTree (l : Language) (source : ByteArray) (root : Node) : Tokens :=
  .ofList ((l.leaves root).map fun n => (n.span, Utf8.lossy (n.octets source)))

end TokenFlow
