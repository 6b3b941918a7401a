import StepChain.Path.Basic
/-!
# Command lines

What a command line asks for.  Options take one value each, in the next argument or attached: `--name value`,
`--name=value`, `-n value`, `-nvalue`, `-n=value`.  A value in an argument of its own does not start with a dash,
unless it is a dash alone; `--` ends the options, and nothing may follow it.  The log level is read like any other
option, but no result depends on it: what goes to the log is left out.
-/
namespace StepChain

inductive Request where
  | process (project : Option Path) (pages layers : List Path) (output : Option Path)
  | steps (project : Option Path) (blockType : Option String)
  | check (project : Option Path)
  | version
  | help
  deriving DecidableEq

namespace Request

/-- An option: how it is written, whether it may be repeated and whether its value is a path, which is never empty. -/
structure OptionSpec where
  long : String
  short : Option Char
  repeatable : Bool
  isPath : Bool

/-- Options as given, in order: the long name and the value. -/
abbrev Given := List (String × String)

/-- Records a value, if the option may have it. -/
def record (spec : OptionSpec) (value : String) (given : Given) : Option Given :=
  if (spec.isPath ∧ value = "") ∨ (!spec.repeatable ∧ given.any (·.1 == spec.long)) then none
  else some (given ++ [(spec.long, value)])

inductive Argument where
  | long (name : String) (value : Option String)
  | short (letter : Char) (value : Option String)
  | ending
  | plain (text : String)

/-- A long name and the value after its first `=`. -/
def splitLong (cs : List Char) : Argument :=
  let name := String.ofList (cs.takeWhile (· != '='))
  match cs.dropWhile (· != '=') with
  | _ :: value => .long name (some (String.ofList value))
  | [] => .long name none

def attachedValue : List Char → Option String
  | [] => none
  | '=' :: value => some (String.ofList value)
  | value => some (String.ofList value)

def Argument.ofText (text : String) : Argument :=
  match text.toList with
  | ['-', '-'] => .ending
  | '-' :: '-' :: cs => splitLong cs
  | '-' :: letter :: cs => .short letter (attachedValue cs)
  | _ => .plain text

structure Level where
  options : List OptionSpec
  commands : List String
  hasVersion : Bool

/-- Whether `help` followed by these arguments can be answered: alone, or for one command, itself included; no command
has commands of its own. -/
def Level.explains (level : Level) : List String → Bool
  | [] => !level.commands.isEmpty
  | [name] => level.commands.contains name || (name == "help" && !level.commands.isEmpty)
  | _ => false

inductive Ending where
  | finished (given : Given)
  | command (name : String) (rest : List String)
  | version
  | help

/-- Reads one level of a command line; `pending` is an option that waits for its value. -/
def readLevel (level : Level) : Option OptionSpec → List String → Given → Option Ending
  | some spec, arg :: rest, given =>
    match Argument.ofText arg with
    | .plain value => (record spec value given).bind (readLevel level none rest)
    | _ => none
  | some _, [], _ => none
  | none, [], given => some (.finished given)
  | none, arg :: rest, given =>
    match Argument.ofText arg with
    | .ending => if rest.isEmpty then some (.finished given) else none
    | .plain text =>
      if level.commands.contains text then some (.command text rest)
      else if text = "help" ∧ level.explains rest then some .help
      else none
    | .long name value =>
      match level.options.find? (·.long == name), value with
      | some spec, some value => (record spec value given).bind (readLevel level none rest)
      | some spec, none => readLevel level (some spec) rest given
      | none, some _ => none
      | none, none =>
        if name = "help" then some .help
        else if name = "version" ∧ level.hasVersion then some .version
        else none
    | .short letter value =>
      match level.options.find? (·.short == some letter), value with
      | some spec, some value => (record spec value given).bind (readLevel level none rest)
      | some spec, none => readLevel level (some spec) rest given
      | none, _ =>
        if letter = 'h' then some .help
        else if letter = 'V' ∧ level.hasVersion then some .version
        else none

def logLevel : OptionSpec := ⟨"log-level", none, false, false⟩

def projectOption : OptionSpec := ⟨"config", some 'c', false, true⟩

def topLevel : Level := ⟨[logLevel], ["process", "steps", "check"], true⟩

def processLevel : Level :=
  ⟨[logLevel, projectOption, ⟨"file", some 'f', true, true⟩, ⟨"merge", none, true, true⟩,
    ⟨"output", some 'o', false, true⟩], [], false⟩

def stepsLevel : Level := ⟨[logLevel, projectOption, ⟨"block-type", some 't', false, false⟩], [], false⟩

def checkLevel : Level := ⟨[logLevel, projectOption], [], false⟩

def valuesOf (given : Given) (name : String) : List String := (given.filter (·.1 == name)).map (·.2)

def pathOf (given : Given) (name : String) : Option Path := (valuesOf given name).head?.map Path.mk

/-- The request of a command and its options; `process` needs a page. -/
def ofCommand (name : String) (given : Given) : Option Request :=
  let project := pathOf given "config"
  if name = "process" then
    let pages := (valuesOf given "file").map Path.mk
    if pages.isEmpty then none
    else some (.process project pages ((valuesOf given "merge").map Path.mk) (pathOf given "output"))
  else if name = "steps" then some (.steps project (valuesOf given "block-type").head?)
  else some (.check project)

def levelOf (name : String) : Level :=
  if name = "process" then processLevel else if name = "steps" then stepsLevel else checkLevel

/-- The request of a command line, `none` if it is none. -/
def ofArguments? (args : List String) : Option Request := do
  match ← readLevel topLevel none args [] with
  | .command name rest =>
    match ← readLevel (levelOf name) none rest [] with
    | .finished given => ofCommand name given
    | .help => return .help
    | _ => none
  | .version => return .version
  | .help => return .help
  | .finished _ => none

end Request

end StepChain
