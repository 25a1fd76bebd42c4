/-!
# Numerals

Numbers are read from digits in a base up to sixteen.  Where a number has to fit into
64 bits, it has to be below `wordBound`.
-/
namespace TokenFlow.Numeral

/-- The least number that does not fit into 64 bits. -/
def wordBound : Nat := 18446744073709551616

/-- The value of a digit. -/
def digit? (base : Nat) (c : Char) : Option Nat :=
  let value :=
    if '0' ≤ c && c ≤ '9' then some (c.toNat - '0'.toNat)
    else if 'a' ≤ c && c ≤ 'f' then some (c.toNat - 'a'.toNat + 10)
    else if 'A' ≤ c && c ≤ 'F' then some (c.toNat - 'A'.toNat + 10)
    else none
  value.filter (· < base)

/-- The number that some digits stand for, at least one of them. -/
def ofDigits? (base : Nat) (digits : List Char) : Option Nat :=
  if digits.isEmpty then none
  else digits.foldlM (fun n c => (digit? base c).map (n * base + ·)) 0

/-- Drops the sign that may stand in front of a number. -/
def dropPlus : List Char → List Char
  | '+' :: rest => rest
  | text => text

/-- A number in lower-case hexadecimal digits. -/
def hex (n : Nat) : String :=
  String.ofList (Nat.toDigits 16 n)

end TokenFlow.Numeral
