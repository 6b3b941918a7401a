import StepChain.Path.Normal
/-!
# Where outputs go

The last step of a chain writes under the destination directory and every other step under the staging directory, in a
directory of the step's name.  All three answers are in normal form.
-/
namespace StepChain.Output

/-- The final output of a block. -/
def final (dest : Path) (blockDest : String) : String := (dest.join ⟨rootless blockDest⟩).normal.text

/-- The one staged output of a step that merges its inputs. -/
def staged (staging : Path) (step blockDest : String) : String :=
  ((staging.join ⟨step⟩).join ⟨rootless blockDest⟩).normal.text

/-- The staged output of a step for one of its inputs: the input's file name, or all of it if it has none. -/
def stagedFor (staging : Path) (step source : String) : String :=
  ((staging.join ⟨step⟩).join ⟨(Path.fileName? ⟨source⟩).getD source⟩).normal.text

end StepChain.Output
