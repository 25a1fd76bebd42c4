/-!
# Reading arguments

Arguments are options and operands.  An option has a long name behind two dashes, and
perhaps a letter behind one dash.  Letters of options without a value can be written
together.  A value follows its letter at once or as the next argument, and its long
name behind `=` or as the next argument; the next argument is no value if it starts
with a dash and has more to it.  Behind a lone `--` all arguments are operands.

Reading goes from left to right and lists what it meets, faults among it, so that what
stands first counts first.
-/
namespace TokenFlow.Command

/-- What an option is about. -/
inductive Key where
  | help
  | version
  | verbose
  | language
  | settings
  | format
  | noState
  | threads
  | output
  | template
  | list
  deriving DecidableEq, Repr

/-- How an option is written. -/
structure Switch where
  key : Key
  letter : Option Char
  long : String
  /-- Whether a value belongs to it. -/
  takesValue : Bool := false

/-- What is met among the arguments. -/
inductive Argument where
  | flag (key : Key)
  | value (key : Key) (text : String)
  | operand (text : String)
  /-- Something that cannot stand where it stands. -/
  | fault
  deriving DecidableEq, Repr

namespace Argument

/-- What one argument holds, and the option whose value is still to come. -/
abbrev Reading := List Argument × Option Key

/-- Drops the sign between a letter and its value. -/
def dropSign : List Char → List Char
  | '=' :: text => text
  | text => text

/-- Letters of options, written together. -/
def letters (switches : List Switch) : List Char → Reading
  | [] => ([], none)
  | c :: rest =>
    match switches.find? (·.letter == some c) with
    | none => ([fault], none)
    | some s =>
      if s.takesValue then
        if rest.isEmpty then ([], some s.key)
        else ([value s.key (String.ofList (dropSign rest))], none)
      else
        let (more, pending) := letters switches rest
        (flag s.key :: more, pending)

/-- A long name, perhaps with a value. -/
def longName (switches : List Switch) (body : List Char) : Reading :=
  let name := String.ofList (body.takeWhile (· ≠ '='))
  let text := match body.dropWhile (· ≠ '=') with
    | [] => none
    | _ :: text => some (String.ofList text)
  match switches.find? (·.long == name) with
  | none => ([fault], none)
  | some s =>
    match s.takesValue, text with
    | true, some text => ([value s.key text], none)
    | true, none => ([], some s.key)
    | false, none => ([flag s.key], none)
    | false, some _ => ([fault], none)

/-- Whether an argument starts with a dash and has more to it. -/
def isOption (arg : String) : Bool :=
  match arg.toList with
  | '-' :: _ :: _ => true
  | _ => false

/-- What a list of arguments holds. -/
def readAll (switches : List Switch) : List String → List Argument
  | [] => []
  | arg :: rest =>
    if arg == "--" then rest.map operand
    else if isOption arg then
      let reading := match arg.toList.drop 1 with
        | '-' :: body => longName switches body
        | body => letters switches body
      match reading with
      | (found, none) => found ++ readAll switches rest
      | (found, some key) =>
        match rest with
        | [] => found ++ [fault]
        | next :: rest =>
          if isOption next then found ++ [fault]
          else found ++ value key next :: readAll switches rest
    else operand arg :: readAll switches rest

end Argument

end TokenFlow.Command
