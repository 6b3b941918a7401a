import StepChain.Output
import StepChain.Proofs.Path.NormalForm
/-!
# Where outputs lie

A staged output lies in the directory of its step under the staging directory, a final one under the destination
(`walk_staged`, `walk_inStep`, `walk_final`).  An output made for one input depends on the input's file name alone and
keeps it (`stagedFor_eq`, `fileName?_stagedFor`), so it may be made again and again (`stagedFor_stagedFor`).
-/
namespace StepChain

def fileNames (paths : List String) : List (Option String) := paths.map fun x => Path.fileName? ⟨x⟩

namespace Output

open StepChain.Path (IsName NonClimbing)

variable (staging dest : Path) {step : String}

/-- The path of a file in a step's own staging directory. -/
def inStep (staging : Path) (step file : String) : String := ((staging.join ⟨step⟩).join ⟨file⟩).normal.text

/-! ### Outputs for one input -/

/-- **The output for an input is decided by the input's file name.** -/
theorem stagedFor_eq (step : String) {source file : String} (h : Path.fileName? ⟨source⟩ = some file) :
    stagedFor staging step source = inStep staging step file := by
  rw [stagedFor, h, Option.getD_some, inStep]

theorem fileName?_inStep (step : String) {file : String} (h : IsName file) :
    Path.fileName? ⟨inStep staging step file⟩ = some file := by
  rw [inStep, Path.mk_text, Path.fileName?_normal_join _ h]

/-- **The output for an input keeps the input's file name.** -/
theorem fileName?_stagedFor (step : String) {source : String} (h : (Path.fileName? ⟨source⟩).isSome) :
    Path.fileName? ⟨stagedFor staging step source⟩ = Path.fileName? ⟨source⟩ := by
  obtain ⟨file, hfile⟩ := Option.isSome_iff_exists.1 h
  rw [stagedFor_eq staging step hfile, fileName?_inStep staging step (Path.isName_of_fileName? hfile), hfile]

theorem stagedFor_stagedFor (step earlier : String) {source : String} (h : (Path.fileName? ⟨source⟩).isSome) :
    stagedFor staging step (stagedFor staging earlier source) = stagedFor staging step source := by
  obtain ⟨file, hfile⟩ := Option.isSome_iff_exists.1 h
  have hkept : Path.fileName? ⟨stagedFor staging earlier source⟩ = some file := by
    rw [fileName?_stagedFor staging earlier h, hfile]
  rw [stagedFor_eq staging step hkept, stagedFor_eq staging step hfile]

theorem fileNames_map_stagedFor (step : String) {sources : List String}
    (h : ∀ s ∈ sources, (Path.fileName? ⟨s⟩).isSome) :
    fileNames (sources.map (stagedFor staging step)) = fileNames sources := by
  unfold fileNames
  rw [List.map_map]
  exact List.map_congr_left fun s hs => by rw [Function.comp_apply, fileName?_stagedFor staging step (h s hs)]

/-! ### Where they lead -/

theorem walk_final (blockDest : String) (dir : List String) :
    Path.walk ⟨final dest blockDest⟩ dir = Path.walk ⟨rootless blockDest⟩ (dest.walk dir) := by
  rw [final, Path.mk_text, Path.walk_normal, Path.walk_join]

theorem walk_staged (hstep : IsName step) (blockDest : String) (dir : List String) :
    Path.walk ⟨staged staging step blockDest⟩ dir =
      Path.walk ⟨rootless blockDest⟩ (staging.walk dir ++ [step]) := by
  rw [staged, Path.mk_text, Path.walk_normal, Path.walk_join, Path.walk_join, Path.walk_name hstep]

theorem walk_inStep (hstep : IsName step) {file : String} (hfile : IsName file) (dir : List String) :
    Path.walk ⟨inStep staging step file⟩ dir = staging.walk dir ++ [step, file] := by
  rw [inStep, Path.mk_text, Path.walk_normal, Path.walk_join, Path.walk_join, Path.walk_name hstep,
    Path.walk_name hfile, List.append_assoc]
  rfl

/-- The staged output of a step that merges always has a file name: the last that the block's destination leads to, or
the step's own. -/
theorem fileName?_staged (hstep : IsName step) {blockDest : String} (h : NonClimbing ⟨rootless blockDest⟩) :
    Path.fileName? ⟨staged staging step blockDest⟩ = some ((Path.below ⟨rootless blockDest⟩).getLast?.getD step) := by
  have hcs := Path.normalComponents_join (p := staging.join ⟨step⟩) h (Path.isAbsolute_rootless blockDest)
  rw [Path.normalComponents_join_name staging hstep] at hcs
  rcases List.eq_nil_or_concat (Path.below ⟨rootless blockDest⟩) with hnil | ⟨front, last, hlast⟩
  · rw [hnil, List.map_nil, List.append_nil] at hcs
    rw [hnil, staged, Path.mk_text, List.getLast?_nil]
    exact Path.fileName?_normal hcs
  · rw [List.concat_eq_append] at hlast
    rw [hlast, List.map_append, ← List.append_assoc] at hcs
    rw [hlast, staged, Path.mk_text, List.getLast?_concat]
    exact Path.fileName?_normal hcs

end Output

end StepChain
