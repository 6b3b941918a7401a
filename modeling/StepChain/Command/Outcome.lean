import StepChain.Command.Request
import StepChain.FileTree
import StepChain.Json.Printer
import StepChain.Project
/-!
# What a command does

`process` compiles pages and prints the configuration or writes it to a file, `steps` lists the steps of a project and
`check` describes it.  Each works in stages, and the first stage that fails decides the exit code and the message
(`CommandFault`); nothing is printed or written then.

`plan` reads through a `FileView` and tells what is left to do; `run` does it in a file tree.
-/
namespace StepChain

/-- What a command may ask of a file system. -/
structure FileView where
  text? : Path → Option String
  present : Path → Bool

def FileTree.view (t : FileTree) : FileView := ⟨t.text?, t.contains⟩

inductive CommandFault where
  | usage
  | loading (path : Path) (cause : ProjectFault)
  | configuration (cause : ProjectFault)
  | page (cause : PageFault)
  | layer (path : Path)
  | layersNotObject
  | resolution (cause : SourceFault)
  | writing (path : Path)

namespace CommandFault

def exitCode : CommandFault → Nat
  | .usage | .loading .. | .configuration _ => 2
  | .page _ | .layer _ | .layersNotObject | .writing _ => 1
  | .resolution _ => 3

def message : CommandFault → String
  | .usage => "usage: asset-flow process|steps|check [options]"
  | .loading path cause => "Error loading " ++ path.text ++ ": " ++ cause.message
  | .configuration cause => "Configuration error: " ++ cause.message
  | .page cause => "Error loading file description: " ++ cause.message
  | .layer path => "Error loading existing config: " ++ path.text
  | .layersNotObject => "Error loading existing config: existing config must be a JSON object"
  | .resolution cause => "Error: " ++ cause.message
  | .writing path => "Error writing " ++ path.text

end CommandFault

structure Outcome where
  code : Nat
  stdout : String
  stderr : String
  deriving DecidableEq

def Outcome.printed (text : String) : Outcome := ⟨0, text, ""⟩

def Outcome.failed (e : CommandFault) : Outcome := ⟨e.exitCode, "", e.message ++ "\n"⟩

/-- What is left to do once a command has been worked out: to print, or to write a file. -/
inductive Plan where
  | print (text : String)
  | write (path : Path) (text : String)

namespace Command

def defaultProject : Path := ⟨"asset-flow.toml"⟩

def versionText : String := "asset-flow 0.1.0\n"

def readProject (files : FileView) (path : Path) : Except CommandFault Project :=
  match files.text? path with
  | some text => (Project.ofText text).mapError (.loading path)
  | none => .error (.loading path .unreadable)

def readPage (files : FileView) (path : Path) : Except PageFault Page :=
  match files.text? path with
  | some text =>
    match Page.ofText? text with
    | some page => .ok page
    | none => .error (.malformed path)
  | none => .error (.unreadable path)

def readLayer (files : FileView) (path : Path) : Except CommandFault Json :=
  match (files.text? path).bind Json.ofText? with
  | some layer => .ok layer
  | none => .error (.layer path)

/-- The configuration that layers amount to: an object, or nothing at all. -/
def configOfLayers (layers : List Json) : Except CommandFault Config :=
  match Json.layered layers with
  | .object config => .ok config
  | .null => .ok .nil
  | _ => .error .layersNotObject

/-- The configuration that `process` makes. -/
def compile (files : FileView) (project : Path) (pages layers : List Path) : Except CommandFault Config := do
  let project ← readProject files project
  let compiler ← project.compiler.mapError .configuration
  let pages ← pages.mapM fun path => (readPage files path).mapError .page
  let config ← configOfLayers (← layers.mapM (readLayer files))
  (compiler.run files.present pages config).outcome.mapError .resolution

def configText (config : Config) : String := (Json.object config).pretty ++ "\n"

def lines (texts : List String) : String := String.join (texts.map (· ++ "\n"))

/-- The chain of a block type, numbered. -/
def chainText (blockType : String) (steps : List Step) : String :=
  if steps.isEmpty then "No steps configured for block type '" ++ blockType ++ "'.\n"
  else lines (steps.zipIdx.map fun (s, i) => "  " ++ toString (i + 1) ++ ". " ++ s.name)

/-- Every chain of a flow, and its steps once each. -/
def flowText (flow : Flow) : String :=
  let chains := flow.chains.map fun (blockType, _) =>
    "  " ++ blockType ++ ": " ++ " -> ".intercalate ((flow.chainOf blockType).map Step.name)
  lines (chains ++ ["", "  All steps: " ++ ", ".intercalate (flow.distinctSteps.map Step.name)])

def stepsText (compiler : Compiler) : Option String → String
  | some blockType => chainText blockType (compiler.steps (some blockType))
  | none => flowText compiler.flow

/-- What `check` tells about a project that is valid. -/
def checkText (path : Path) (project : Project) (flow : Flow) : String :=
  let roots := project.layout.rootList.map Path.text
  lines (["Configuration valid: " ++ path.text, ""] ++
    (if roots.isEmpty then [] else ["  Roots: " ++ ", ".intercalate roots]) ++
    ["  Dest: " ++ project.layout.dest.text, "  Staging: " ++ project.layout.staging.text,
      "  Warn missing: " ++ (if project.strict then "true" else "false"),
      "  Block types: " ++ toString flow.chains.length])

def plan (files : FileView) : Request → Except CommandFault Plan
  | .process project pages layers output => do
    let text := configText (← compile files (project.getD defaultProject) pages layers)
    return match output with
      | some path => .write path text
      | none => .print text
  | .steps project blockType => do
    let project ← readProject files (project.getD defaultProject)
    let compiler ← project.compiler.mapError .configuration
    return .print (stepsText compiler blockType)
  | .check project => do
    let path := project.getD defaultProject
    let project ← readProject files path
    let flow ← (project.flow .standard).mapError .configuration
    return .print (checkText path project flow)
  | .version => return .print versionText
  | .help => return .print (CommandFault.usage.message ++ "\n")

def planArguments (files : FileView) (args : List String) : Except CommandFault Plan :=
  match Request.ofArguments? args with
  | some request => plan files request
  | none => .error .usage

def reads : Request → List Path
  | .process project pages layers _ => project.getD defaultProject :: pages ++ layers
  | .steps project _ | .check project => [project.getD defaultProject]
  | .version | .help => []

/-- The paths whose existence a request may ask for, once its files are read. -/
def probes (files : FileView) : Request → List Path
  | .process project pages _ _ =>
    match (readProject files (project.getD defaultProject)).toOption.bind (·.compiler.toOption) with
    | some compiler =>
      (jobsOf (pages.filterMap fun path => (readPage files path).toOption)).flatMap fun job =>
        job.block.src.flatMap (compiler.search.candidates job.page.dir)
    | none => []
  | _ => []

def written (path : Path) : Outcome := ⟨0, "", "Wrote: " ++ path.text ++ "\n"⟩

/-- Runs a command line in a file tree. -/
def run (t : FileTree) (args : List String) : Outcome × FileTree :=
  match planArguments t.view args with
  | .ok (.print text) => (.printed text, t)
  | .ok (.write path text) =>
    match t.write? path text.toUTF8 with
    | some t => (written path, t)
    | none => (.failed (.writing path), t)
  | .error e => (.failed e, t)

end Command

end StepChain
