import StepChain.Json.Basic
/-!
# Steps

A step turns a mapping of inputs to one output into a fragment of configuration.  Standard steps ask for the usual
file list, custom ones build whatever they like.  A step that merges gets all of a block's inputs at once, one that
works per source gets each on its own.
-/
namespace StepChain

structure Mapping where
  src : List String
  dest : String
  deriving DecidableEq

/-- The key of a fragment that holds a list of files. -/
def fileListKey : String := "files"

def Json.ofStrings (xs : List String) : Json := .array (xs.map .string)

def Mapping.entry (m : Mapping) : Json :=
  .object (Json.Members.ofList [("dest", .string m.dest), ("src", Json.ofStrings m.src)])

/-- A fragment with nothing but a file list, which has one entry. -/
def Mapping.fileList (m : Mapping) : Json := .object (Json.Members.ofList [(fileListKey, .array [m.entry])])

/-- Whether a step gets its inputs all at once or each on its own. -/
inductive Step.Mode where
  | merged
  | perSource
  deriving DecidableEq

inductive Step.Builder where
  | standard
  | custom (build : Mapping → Json)

structure Step where
  name : String
  mode : Step.Mode
  builder : Step.Builder

namespace Step

def fragment (s : Step) (m : Mapping) : Json :=
  match s.builder with
  | .standard => m.fileList
  | .custom build => build m

def isStandard (s : Step) : Bool :=
  match s.builder with
  | .standard => true
  | .custom _ => false

def standard (name : String) (mode : Mode) : Step := ⟨name, mode, .standard⟩

def concat : Step := standard "concat" .merged

def uglify : Step := standard "uglify" .perSource

def cssmin : Step := standard "cssmin" .perSource

end Step

end StepChain
