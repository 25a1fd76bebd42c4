import TokenFlow.Tokens
import TokenFlow.Analysis.Traced

/-!
# What an analysis is given

A `Setup` holds the table of the language, the tokens of the file, how deep nesting
is followed, and how often the body of a loop is read.  Two readings of a body are
enough for what a body reads before it writes to see what the round before it wrote.

`leaf` says what part a token plays: it names a variable, it is a literal, or it is
silent, as keywords, marks and labels are.
-/
namespace TokenFlow

/-- How deep nesting is followed unless something else is asked for. -/
def defaultDepth : Nat := 512

/-- What an analysis is given. -/
structure Setup where
  language : Language
  tokens : Tokens
  /-- The depth of nesting behind which nodes are left out. -/
  limit : Nat := defaultDepth
  /-- How often the repeated part of a loop is read. -/
  passes : Nat := 2

/-- The part that a token plays. -/
inductive Leaf where
  | name (token : Token)
  | literal (token : Token)
  | silent

namespace Setup

/-- The part of the token at a place.  A keyword or mark has its own text as its
kind.  A leaf that is not among the tokens is reported, unless it has no text. -/
def leaf (s : Setup) (p : Place) : Traced Leaf :=
  match s.tokens.find? p.node.span with
  | none => do
    unless p.node.span.isEmpty do Traced.degrade (.unknownToken p.node.span)
    return .silent
  | some token =>
    if token.text.isEmpty || token.text == p.kind then return .silent
    else if s.language.isIdentifier p.kind then
      if s.language.isLabel p then return .silent else return .name token
    else return .literal token

/-- Reports that a node is nested too deep. -/
def cut (s : Setup) (p : Place) : Traced Unit :=
  .degrade (.tooDeep s.limit p.kind p.node.span)

/-- How many more levels may be entered at the root.  The root is at depth zero, and
a node at the depth of the limit is still read. -/
def budget (s : Setup) : Nat := s.limit + 1

end Setup

end TokenFlow
