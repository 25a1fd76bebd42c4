import TokenFlow.Text.Numeral

/-!
# Places in a source text

A `Position` counts rows and columns from zero, a column in octets.  A `Span` is
where a node starts and where it ends; it is the key under which a token is known.
People count from one, so the written form of a span adds one to each number; the
numbers are of 64 bits, and behind the last of them zero comes again.
-/
namespace TokenFlow

/-- A row and a column, both counted from zero. -/
structure Position where
  row : Nat
  column : Nat
  deriving DecidableEq, Repr

namespace Position

/-- The start of a text. -/
def origin : Position := ⟨0, 0⟩

/-- The position after one more octet: a line feed starts the next row. -/
def advance (p : Position) (octet : UInt8) : Position :=
  if octet = 10 then ⟨p.row + 1, 0⟩ else ⟨p.row, p.column + 1⟩

/-- The position before each octet of a text and the one after its last. -/
def marks (text : ByteArray) : Array Position :=
  (text.foldl (fun (seen, p) octet => (seen.push (p.advance octet), p.advance octet))
    (#[origin], origin)).1

end Position

/-- Where a node starts and ends. -/
structure Span where
  start : Position
  stop : Position
  deriving DecidableEq, Repr

namespace Span

/-- A span without text, as of a node that stands for something missing. -/
def isEmpty (s : Span) : Bool :=
  s.start = s.stop

/-- The number of a row or column as people count it. -/
def ordinal (n : Nat) : Nat :=
  (n + 1) % Numeral.wordBound

/-- The written form, which counts from one. -/
def text (s : Span) : String :=
  s!"{ordinal s.start.row}:{ordinal s.start.column}-{ordinal s.stop.row}:{ordinal s.stop.column}"

end Span

end TokenFlow
