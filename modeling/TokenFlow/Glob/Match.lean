import TokenFlow.Glob.Read

/-!
# Matching a path

A path is matched octet by octet.  While the pieces of a pattern are gone through, a
front says for each place in the path, its end among them, whether the pieces so far
can match everything in front of that place.  Each piece moves the front on, so the
work grows with the length of the pattern times that of the path.  A pattern matches
if the front reaches the end.
-/
namespace TokenFlow.Glob

/-- For each place in a path whether something can match all that is in front of it. -/
abbrev Front := List Bool

namespace Front

/-- Nothing has been matched. -/
def start (path : List UInt8) : Front :=
  true :: path.map fun _ => false

/-- Whether the whole path has been matched. -/
def reachesEnd (front : Front) : Bool :=
  front.getLastD false

/-- Moves over one octet of some kind. -/
def step (kind : UInt8 → Bool) (path : List UInt8) (front : Front) : Front :=
  false :: path.zipWith (fun octet reached => reached && kind octet) front

/-- Moves over any stretch. -/
def spread (reached : Bool) : Front → Front
  | [] => []
  | here :: rest => (reached || here) :: spread (reached || here) rest

/-- What either of two fronts reaches. -/
def union (front other : Front) : Front :=
  front.zipWith or other

/-- Moves over a slash. -/
def overSlash (path : List UInt8) (front : Front) : Front :=
  front.step (· == '/'.toNat.toUInt8) path

/-- Stays, or moves over a stretch that ends in a slash. -/
def overComponents (path : List UInt8) (front : Front) : Front :=
  front.union ((spread false front).overSlash path)

end Front

/-- The octets of a character. -/
def octetsOf (c : Char) : List UInt8 :=
  (String.singleton c).toUTF8.toList

/-- The ranges of octets that a range of characters in a set stands for: octet for
octet, with one range from the last octet of the first character to the first octet
of the last. -/
def octetRanges (range : Char × Char) : List (UInt8 × UInt8) :=
  let first := octetsOf range.1
  let last := octetsOf range.2
  if range.1 = range.2 then first.map fun b => (b, b)
  else
    (first.dropLast.map fun b => (b, b)) ++
      [(first.getLastD 0, last.headD 0)] ++ ((last.drop 1).map fun b => (b, b))

/-- Whether an octet is in a set. -/
def inSet (negated : Bool) (ranges : List (Char × Char)) (octet : UInt8) : Bool :=
  (ranges.flatMap octetRanges).any (fun (low, high) => low ≤ octet && octet ≤ high) != negated

mutual
/-- Moves a front over what a piece matches. -/
def Piece.move (path : List UInt8) : Piece → Front → Front
  | .literal c, front =>
    (octetsOf c).foldl (fun front octet => front.step (· == octet) path) front
  | .any, front => front.step (fun _ => true) path
  | .run, front => Front.spread false front
  | .leading, front => front.overComponents path
  | .trailing, front => Front.spread false (front.overSlash path)
  | .between, front => (front.overSlash path).overComponents path
  | .set negated ranges, front => front.step (inSet negated ranges) path
  | .choice [], front => front
  | .choice (first :: others), front => (moveAll path first front).union (moveAny path others front)

/-- Moves a front over what pieces in a row match. -/
def moveAll (path : List UInt8) : List Piece → Front → Front
  | [], front => front
  | p :: ps, front => moveAll path ps (p.move path front)

/-- Moves a front over what one of several patterns matches. -/
def moveAny (path : List UInt8) : List (List Piece) → Front → Front
  | [], front => front.map fun _ => false
  | first :: others, front => (moveAll path first front).union (moveAny path others front)
end

/-- Whether a pattern matches a path as a whole.  A pattern that is nothing but any
number of components matches every path. -/
def matchesPath (pieces : List Piece) (path : String) : Bool :=
  match pieces with
  | [.leading] => true
  | _ =>
    let octets := path.toUTF8.toList
    (moveAll octets pieces (.start octets)).reachesEnd

end TokenFlow.Glob
