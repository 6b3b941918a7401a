import StepChain.Step.Basic
import StepChain.Fault
/-!
# The registry of steps

Steps are known by name, and an alias is another name for a known step.  No identifier names two things: neither a
step nor an alias may take a name that is in use.  An alias always points to a step, never to another alias.
-/
namespace StepChain

structure Registry where
  steps : List Step
  aliases : List (String × String)

namespace Registry

def empty : Registry := ⟨[], []⟩

/-- The three steps that are always there, `uglifyjs` being another name for `uglify`. -/
def standard : Registry := ⟨[.concat, .uglify, .cssmin], [("uglifyjs", "uglify")]⟩

def step? (r : Registry) (name : String) : Option Step := r.steps.find? (·.name == name)

def alias? (r : Registry) (id : String) : Option String := (r.aliases.find? (·.1 == id)).map (·.2)

/-- Whether a name is in use, by a step or an alias. -/
def isTaken (r : Registry) (name : String) : Bool := (r.step? name).isSome || (r.alias? name).isSome

/-- The name of the step that an identifier stands for. -/
def nameOf? (r : Registry) (id : String) : Option String := if (r.step? id).isSome then some id else r.alias? id

/-- The step that an identifier stands for. -/
def find (r : Registry) (id : String) : Except ConfigFault Step :=
  match (r.nameOf? id).bind r.step? with
  | some s => .ok s
  | none => .error (.unknown id)

def knows (r : Registry) (id : String) : Bool := (r.nameOf? id).isSome

def stepNames (r : Registry) : List String := (r.steps.map Step.name).mergeSort (fun a b => decide (a ≤ b))

def addStep (r : Registry) (s : Step) : Except ConfigFault Registry :=
  if r.isTaken s.name then .error (.taken s.name) else .ok { r with steps := r.steps ++ [s] }

def addAlias (r : Registry) (name step : String) : Except ConfigFault Registry :=
  if (r.step? step).isNone then .error (.unknown step)
  else if r.isTaken name then .error (.taken name)
  else .ok { r with aliases := r.aliases ++ [(name, step)] }

end Registry

end StepChain
