import StepChain.Compile.Basic
/-!
# Descriptions

One line that tells what a value is, for logs: its kind, and in braces the fields that can be shown.  Functions
cannot; of a hook only whether there is one is told, and a step or post-processor with one ends in dots.
-/
namespace StepChain

/-- A kind with its fields; `more` tells that not all of it is shown. -/
def describe (kind : String) (fields : List (String × String)) (more : Bool) : String :=
  let shown := fields.map (fun f => f.1 ++ ": " ++ f.2) ++ (if more then [".."] else [])
  kind ++ " \x7b " ++ ", ".intercalate shown ++ " \x7d"

def describeText (s : String) : String := "\"" ++ s ++ "\""

def describeBool (b : Bool) : String := if b then "true" else "false"

def Step.Mode.describe : Step.Mode → String
  | .merged => "Merged"
  | .perSource => "PerSource"

def Search.describe (s : Search) : String :=
  StepChain.describe "SourceResolver"
    [("roots", "[" ++ ", ".intercalate (s.roots.map fun p => describeText p.text) ++ "]"),
      ("warn_missing", describeBool s.strict), ("hook", describeBool s.hook.isSome)] false

def Behavior.describe (b : Behavior) : String :=
  StepChain.describe "BehaviorOptions"
    [("warn_missing", describeBool b.strict), ("resolve_source", describeBool b.hook.isSome)] false

def Step.describe (s : Step) : String :=
  StepChain.describe "FnStep" [("name", describeText s.name), ("mode", s.mode.describe)] true

def Post.describe (p : Post) : String :=
  StepChain.describe "FnPost" [("step", describeText p.step)] true

end StepChain
