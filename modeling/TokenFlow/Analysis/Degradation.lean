import TokenFlow.Syntax.Span

/-!
# What an analysis could not do

The analysis never fails.  Where it meets a leaf that is no known token, or nesting
deeper than it follows, it goes on without that part of the program and says so in a
`Degradation`.
-/
namespace TokenFlow

/-- A part of the program that the analysis left out. -/
inductive Degradation where
  /-- A leaf with text is not among the tokens. -/
  | unknownToken (span : Span)
  /-- A node is nested deeper than the limit. -/
  | tooDeep (limit : Nat) (kind : String) (span : Span)
  deriving DecidableEq, Repr

namespace Degradation

/-- Where the part lies. -/
def span : Degradation → Span
  | unknownToken span => span
  | tooDeep _ _ span => span

/-- What is said of it. -/
def message : Degradation → String
  | unknownToken span => s!"leaf at {span.text} is missing from the token index"
  | tooDeep limit kind span =>
    s!"nesting deeper than {limit} at {kind} ({span.text}), subtree skipped"

end Degradation

end TokenFlow
