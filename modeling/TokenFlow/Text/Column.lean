/-!
# Columns

A text in a column is filled up with blanks to the width of the column.  The width
counts characters, and a text that is too long is not cut.
-/
namespace TokenFlow.Text

/-- A text at the left of a column. -/
def column (width : Nat) (s : String) : String :=
  s ++ String.ofList (List.replicate (width - s.length) ' ')

end TokenFlow.Text
