import StepChain.Json.Overlay
import StepChain.Page
/-!
# Post-processors

A post-processor follows one step of one block type and adjusts the step's generated section after each block.
-/
namespace StepChain

open Json (Object)

inductive PostAction where
  | options (values : Json)
  | custom (apply : Object → Block → Object)

/-- `step` is an identifier: the name of the step to follow, or an alias of it. -/
structure Post where
  step : String
  action : PostAction

/-- The key of a section that options are laid over. -/
def optionsKey : String := "options"

/-- Options as they are after others are laid over them; a missing or `null` value counts as nothing. -/
def optionsWith (current : Option Json) (values : Json) : Json :=
  match current with
  | none | some .null => values
  | some current => current.overlay values

namespace Post

/-- The section after a post-processor has followed its step for a block. -/
def apply (p : Post) (current : Object) (block : Block) : Object :=
  match p.action with
  | .options .null => current
  | .options values => current.insert optionsKey (optionsWith (current.get? optionsKey) values)
  | .custom apply => apply current block

end Post

end StepChain
