import StepChain.Path.Basic
/-!
# Faults

What can be wrong with a description of steps and directories, with a reference, with a page description and with a
project file.  Each kind has one wording, in its `message`.  Why a file cannot be read or its text not be parsed is said
by the operating system and by the readers of JSON and TOML in words of their own, which are left out.
-/
namespace StepChain

inductive ConfigFault where
  | unknown (id : String)
  | taken (name : String)
  | nameless (blockType : String)
  | rootsConflict
  | noDest
  | noStaging
  deriving DecidableEq

def ConfigFault.message : ConfigFault → String
  | .unknown id => "unknown step \"" ++ id ++ "\""
  | .taken name => "step \"" ++ name ++ "\" is already registered"
  | .nameless blockType => "invalid step for block type \"" ++ blockType ++ "\": custom step has an empty name"
  | .rootsConflict => "cannot specify both 'input' and 'root'"
  | .noDest => "'dest' directory must not be empty"
  | .noStaging => "'staging' directory must not be empty"

/-- A reference that leads nowhere: not found for a page, or sent by the hook to a path that does not exist. -/
inductive SourceFault where
  | notFound (reference : String) (page : Path)
  | overrideMissing (path : Path)
  deriving DecidableEq

def SourceFault.message : SourceFault → String
  | .notFound reference page => "can't resolve source reference \"" ++ reference ++ "\" (in " ++ page.text ++ ")"
  | .overrideMissing path => "resolveSource hook returned non-existent path \"" ++ path.text ++ "\""

inductive PageFault where
  | unreadable (path : Path)
  | malformed (path : Path)
  deriving DecidableEq

def PageFault.message : PageFault → String
  | .unreadable path => "Failed to read " ++ path.text
  | .malformed path => "Failed to parse " ++ path.text

inductive ProjectFault where
  | unreadable
  | malformed
  | invalidChain (blockType : String)
  | invalidPosts (blockType : String)
  | optionsNotTable (blockType step : String)
  | config (cause : ConfigFault)
  deriving DecidableEq

def ProjectFault.message : ProjectFault → String
  | .unreadable => "Failed to read project file"
  | .malformed => "Failed to parse TOML"
  | .invalidChain blockType => "Invalid entry: steps." ++ blockType
  | .invalidPosts blockType => "Invalid entry: post." ++ blockType
  | .optionsNotTable blockType step =>
    "Invalid entry: post." ++ blockType ++ ": options for step '" ++ step ++ "' must be a table"
  | .config cause => cause.message

end StepChain
