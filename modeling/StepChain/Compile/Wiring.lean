import StepChain.Output
import StepChain.Step.Basic
/-!
# The wiring of a chain

Which mappings each position of a chain gets, from the resolved sources of a block.  The outputs of one position are
the inputs of the next; the last position makes the block's final output.  Nothing here depends on what the steps
build.
-/
namespace StepChain

/-- The directories results are written to. -/
structure Targets where
  dest : Path
  staging : Path
  deriving DecidableEq

structure Position where
  step : Step
  mappings : List Mapping

def Position.outputs (p : Position) : List String := p.mappings.map Mapping.dest

namespace Targets

/-- The mappings of a position that is not the last: one for all inputs, or one for each. -/
def staged (t : Targets) (step : Step) (blockDest : String) (inputs : List String) : List Mapping :=
  match step.mode with
  | .merged => [⟨inputs, Output.staged t.staging step.name blockDest⟩]
  | .perSource => inputs.map fun input => ⟨[input], Output.stagedFor t.staging step.name input⟩

def wire (t : Targets) (blockDest : String) : List Step → List String → List Position
  | [], _ => []
  | [step], inputs => [⟨step, [⟨inputs, Output.final t.dest blockDest⟩]⟩]
  | step :: next :: rest, inputs =>
    let position : Position := ⟨step, t.staged step blockDest inputs⟩
    position :: t.wire blockDest (next :: rest) position.outputs

end Targets

end StepChain
