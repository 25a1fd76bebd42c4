import TokenFlow.Analysis.Setup

/-!
# Reading operands

What a construct assigns to, and whether what it assigns is a mere copy, is decided
by the operands alone, without live definitions.  Both functions take a budget: how
many more levels of nesting may be entered.
-/
namespace TokenFlow.Setup

/-- The tokens that name variables at or below a place. -/
def targets (s : Setup) : Nat → Place → Traced (List Token)
  | 0, p => do
    s.cut p
    return []
  | budget + 1, p =>
    if s.language.isComment p.kind then return []
    else if s.language.isToken p.node then do
      match ← s.leaf p with
      | .name token => return [token]
      | _ => return []
    else Traced.gather (s.targets budget) p.children

/-- Kinds of the words that stand for an object without naming it. -/
def selfWords : List String := ["this", "self", "super", "base"]

/-- Whether there is nothing at a place but names, marks and words for the object at
hand, joined by member access.  What is nested too deep is none. -/
def isChain (s : Setup) : Nat → Place → Bool
  | 0, _ => false
  | budget + 1, p =>
    if s.language.isToken p.node then
      s.language.isIdentifier p.kind || !p.named || selfWords.contains p.kind
    else
      s.language.memberAccess.contains p.kind && p.children.all (s.isChain budget)

/-- Whether a value is a name or a chain of them, so that assigning it copies. -/
def isReference (s : Setup) (budget : Nat) (p : Place) : Bool :=
  if s.language.isToken p.node then s.language.isIdentifier p.kind else s.isChain budget p

end TokenFlow.Setup
