/-!
# Finite sets as ascending lists

A finite set of ordered things has one strictly ascending list, and that list is
how this library writes such a set down.  `insert` puts an element in its place
unless it is there already; `ofList` makes the ascending list of whatever a list
holds, so order and repetitions in the list do not matter.
-/
namespace TokenFlow.Ascending

variable {α : Type} [LT α] [DecidableLT α]

/-- Puts an element in its place in an ascending list, unless it is there. -/
def insert (x : α) : List α → List α
  | [] => [x]
  | y :: ys =>
    if x < y then x :: y :: ys
    else if y < x then y :: insert x ys
    else y :: ys

/-- The ascending list of the elements of a list. -/
def ofList (xs : List α) : List α :=
  xs.foldr insert []

@[simp] theorem ofList_nil : ofList ([] : List α) = [] := rfl

@[simp] theorem ofList_cons (x : α) (xs : List α) : ofList (x :: xs) = insert x (ofList xs) := rfl

end TokenFlow.Ascending
