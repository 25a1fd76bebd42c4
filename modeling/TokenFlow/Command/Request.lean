import TokenFlow.Command.Arguments
import TokenFlow.Command.Template
import TokenFlow.Report.Format
import TokenFlow.Text.Numeral

/-!
# What the arguments ask for

Arguments name one of three commands and say how it is to be done.  The command is the
first operand; options that stand before it can only ask for more messages or for
help.  Of all that is wrong or asks for help, what stands first counts.
-/
namespace TokenFlow.Command

/-- What to extract, and how to report it. -/
structure ExtractRequest where
  path : String
  /-- The name of the language of all files, if it was given. -/
  language : Option String := none
  /-- The settings file, if it was named. -/
  settings : Option String := none
  /-- The name of the format. -/
  format : String := Format.pretty.name
  /-- Whether live definitions are left out whatever the settings say. -/
  noState : Bool := false
  deriving DecidableEq, Repr

/-- Which settings file to make. -/
structure InitRequest where
  output : String := "dfgraph.yaml"
  /-- The name of the template. -/
  template : String := Template.usual.name
  /-- Whether the templates are to be listed instead. -/
  list : Bool := false
  deriving DecidableEq, Repr

/-- What the arguments ask for. -/
inductive Request where
  | extract (request : ExtractRequest)
  | languages
  | init (request : InitRequest)
  deriving DecidableEq, Repr

/-- Why arguments lead to no request. -/
inductive Refusal where
  /-- They are not understood. -/
  | usage
  /-- They ask for help or for the version. -/
  | help
  deriving DecidableEq, Repr

/-- The commands by name. -/
inductive Verb where
  | extract
  | languages
  | init
  deriving DecidableEq, Repr

namespace Verb

def all : List Verb := [extract, languages, init]

def name : Verb → String
  | extract => "extract"
  | languages => "languages"
  | init => "init"

/-- The command with a name. -/
def ofName? (given : String) : Option Verb :=
  all.find? (·.name == given)

/-- The options that may stand anywhere. -/
def common : List Switch :=
  [{ key := .help, letter := some 'h', long := "help" },
    { key := .verbose, letter := some 'v', long := "verbose" }]

/-- The options that may stand before the command. -/
def leading : List Switch :=
  common ++ [{ key := .version, letter := some 'V', long := "version" }]

/-- The options that may stand behind the command. -/
def switches : Verb → List Switch
  | extract => common ++
    [{ key := .language, letter := some 'l', long := "language", takesValue := true },
      { key := .settings, letter := some 'c', long := "config", takesValue := true },
      { key := .format, letter := some 'f', long := "format", takesValue := true },
      { key := .noState, letter := none, long := "no-state" },
      { key := .threads, letter := some 'j', long := "threads", takesValue := true }]
  | languages => common
  | init => common ++
    [{ key := .output, letter := some 'o', long := "output", takesValue := true },
      { key := .template, letter := some 't', long := "template", takesValue := true },
      { key := .list, letter := some 'l', long := "list" }]

/-- How many operands the command has. -/
def operandCount : Verb → Nat
  | extract => 1
  | _ => 0

end Verb

/-- Whether a text is a number of 64 bits; it may have a sign in front. -/
def isCount (text : String) : Bool :=
  (Numeral.ofDigits? 10 (Numeral.dropPlus text.toList)).any (· < Numeral.wordBound)

/-- Whether an option can have a value.  Paths are not empty. -/
def Key.accepts (k : Key) (text : String) : Bool :=
  match k with
  | settings | output => text != ""
  | threads => isCount text
  | _ => true

/-- What was given so far. -/
structure Given where
  /-- How often more messages were asked for. -/
  verbosity : Nat := 0
  operands : List String := []
  options : List (Key × String) := []

namespace Given

/-- Whether an option was given. -/
def has (g : Given) (k : Key) : Bool :=
  (g.options.lookup k).isSome

/-- Takes in an option that may be given once. -/
def addOption (g : Given) (k : Key) (text : String) : Except Refusal Given :=
  if g.has k || !k.accepts text then .error .usage
  else .ok { g with options := (k, text) :: g.options }

/-- Takes in an argument, where there may be some number of operands. -/
def add (operandCount : Nat) (g : Given) : Argument → Except Refusal Given
  -- whatever follows a request for help is not looked at
  | .flag .help | .flag .version => .error .help
  | .flag .verbose => .ok { g with verbosity := g.verbosity + 1 }
  | .flag k => g.addOption k ""
  | .value k text => g.addOption k text
  | .operand text =>
    if text == "" || g.operands.length ≥ operandCount then .error .usage
    else .ok { g with operands := g.operands ++ [text] }
  | .fault => .error .usage

/-- All that arguments give. -/
def ofArguments (switches : List Switch) (operandCount : Nat) (args : List String) :
    Except Refusal Given :=
  (Argument.readAll switches args).foldlM (add operandCount) {}

/-- What is asked of a command. -/
def request (g : Given) : Verb → Except Refusal Request
  | .languages => .ok .languages
  | .init =>
    let usual : InitRequest := {}
    .ok (.init {
      output := (g.options.lookup .output).getD usual.output
      template := (g.options.lookup .template).getD usual.template
      list := g.has .list })
  | .extract =>
    match g.operands with
    | [] => .error .usage
    | path :: _ =>
      let usual : ExtractRequest := { path }
      .ok (.extract { usual with
        language := g.options.lookup .language
        settings := g.options.lookup .settings
        format := (g.options.lookup .format).getD usual.format
        noState := g.has .noState })

end Given

/-- What the arguments ask for, and how many messages about it. -/
structure Invocation where
  request : Request
  verbosity : Nat
  deriving DecidableEq, Repr

/-- The most messages that can be asked for. -/
def verbosityCeiling : Nat := 255

/-- What asking for help on a command leads to: help, or a fault where there is no such
command. -/
def helpOn : List String → Refusal
  | [] => .help
  | [name] => if name == "help" || (Verb.ofName? name).isSome then .help else .usage
  | _ => .usage

/-- Whether an argument stands before the command. -/
def leads (arg : String) : Bool :=
  Argument.isOption arg && arg != "--"

/-- What all arguments ask for.  Where messages are asked for on both sides of the
command, what stands behind it counts. -/
def Invocation.ofArguments (args : List String) : Except Refusal Invocation := do
  let before ← Given.ofArguments Verb.leading 0 (args.takeWhile leads)
  match args.dropWhile leads with
  | [] => throw .usage
  | "help" :: rest => throw (helpOn rest)
  | name :: rest =>
    match Verb.ofName? name with
    | none => throw .usage
    | some verb =>
      let behind ← Given.ofArguments verb.switches verb.operandCount rest
      let verbosity := if behind.verbosity = 0 then before.verbosity else behind.verbosity
      return { request := ← behind.request verb, verbosity := min verbosity verbosityCeiling }

end TokenFlow.Command
