/-!
# UTF-8 with damage marked

A source file is a sequence of octets, and nothing promises that they are valid
UTF-8.  `units` reads them as a sequence of characters and damaged places: each
longest run of octets that begins a character but is not continued to its end is
one damaged place, and so is each octet that can begin nothing.

Two readings of a file are built on it.  `lossy` puts U+FFFD for every damaged
place and so always answers; `undamaged?` answers only if there is none.  The names of
files are read in the same two ways.  `octets` is the way back.

Reading is one pass with one octet of look-back: what is owed before the
character at hand is complete is held in a `Pending`, whose bounds `low` and
`high` rule out overlong forms, surrogates and code points past U+10FFFF at the
second octet already.
-/
namespace TokenFlow.Utf8

/-- A character whose first octets have been read. -/
structure Pending where
  /-- The bits read so far. -/
  code : Nat
  /-- How many octets are owed. -/
  owed : Nat
  /-- The least octet that may come next. -/
  low : Nat
  /-- The greatest octet that may come next. -/
  high : Nat

/-- One octet read between characters: what it completes, and what it leaves
pending. -/
def start (b : Nat) : List (Option Char) × Option Pending :=
  if b < 0x80 then ([some (Char.ofNat b)], none)
  else if 0xC2 ≤ b ∧ b ≤ 0xDF then ([], some ⟨b - 0xC0, 1, 0x80, 0xBF⟩)
  else if b = 0xE0 then ([], some ⟨0x0, 2, 0xA0, 0xBF⟩)
  else if b = 0xED then ([], some ⟨0xD, 2, 0x80, 0x9F⟩)
  else if 0xE1 ≤ b ∧ b ≤ 0xEF then ([], some ⟨b - 0xE0, 2, 0x80, 0xBF⟩)
  else if b = 0xF0 then ([], some ⟨0x0, 3, 0x90, 0xBF⟩)
  else if 0xF1 ≤ b ∧ b ≤ 0xF3 then ([], some ⟨b - 0xF0, 3, 0x80, 0xBF⟩)
  else if b = 0xF4 then ([], some ⟨0x4, 3, 0x80, 0x8F⟩)
  else ([none], none)

/-- One octet read after a pending character.  An octet that does not continue it
makes the pending part a damaged place and is then read afresh. -/
def resume (p : Pending) (b : Nat) : List (Option Char) × Option Pending :=
  if p.low ≤ b ∧ b ≤ p.high then
    let code := p.code * 64 + (b - 0x80)
    if p.owed ≤ 1 then ([some (Char.ofNat code)], none)
    else ([], some ⟨code, p.owed - 1, 0x80, 0xBF⟩)
  else
    let (done, left) := start b
    (none :: done, left)

/-- The characters and damaged places of the octets that follow `pending`. -/
def unitsFrom (pending : Option Pending) : List UInt8 → List (Option Char)
  | [] => if pending.isSome then [none] else []
  | b :: rest =>
    let (done, left) := match pending with
      | none => start b.toNat
      | some p => resume p b.toNat
    done ++ unitsFrom left rest

/-- The characters of a sequence of octets, `none` for each damaged place. -/
def units (octets : List UInt8) : List (Option Char) :=
  unitsFrom none octets

/-- The text of the octets, with U+FFFD at each damaged place. -/
def lossy (octets : List UInt8) : String :=
  String.ofList ((units octets).map fun unit => unit.getD '\uFFFD')

/-- The text of the octets, if no place of it is damaged. -/
def undamaged? (octets : List UInt8) : Option String :=
  ((units octets).mapM id).map String.ofList

/-- The octets of a text. -/
def octets (text : String) : List UInt8 :=
  text.toUTF8.data.toList

end TokenFlow.Utf8
