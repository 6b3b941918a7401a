import StepChain.Command.Outcome
/-!
# The command line

Reads the files that a request names and looks up the paths that it may ask for; all decisions are `Command.plan`'s.
-/
open StepChain

def readText (path : Path) : IO (Option String) :=
  try return String.fromUTF8? (← IO.FS.readBinFile path.text) catch _ => return none

def isPresent (path : Path) : IO Bool := do
  try
    let _ ← IO.FS.realPath path.text
    return true
  catch _ => return false

/-- The part of the file system that a request asks for. -/
def viewFor (request : Request) : IO FileView := do
  let texts ← (Command.reads request).mapM fun path => return (path, ← readText path)
  let text? := fun path => (texts.find? (·.1 == path)).bind (·.2)
  let found ← (Command.probes ⟨text?, fun _ => false⟩ request).filterM isPresent
  return ⟨text?, fun path => found.contains path⟩

def outcomeOf (request : Request) : IO Outcome := do
  match Command.plan (← viewFor request) request with
  | .ok (.print text) => return .printed text
  | .ok (.write path text) =>
    try
      IO.FS.writeFile path.text text
      return Command.written path
    catch _ => return .failed (.writing path)
  | .error e => return .failed e

def main (args : List String) : IO UInt32 := do
  let outcome ← match Request.ofArguments? args with
    | some request => outcomeOf request
    | none => pure (.failed .usage)
  IO.print outcome.stdout
  IO.eprint outcome.stderr
  return UInt32.ofNat outcome.code
