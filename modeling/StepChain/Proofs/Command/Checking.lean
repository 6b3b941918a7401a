import StepChain.Proofs.Command.Stages
import StepChain.Proofs.Compile.Strictness
/-!
# What `check` promises

`check` builds the flow of a project and no compiler.  A compiler asks for nothing more than a layout that can be used,
and reading the project has seen to that (`Project.faultOf_compiler`).  So `check`, `steps` and the first two stages of
`process` fail together and in the same way (`check_faithful`).
-/
namespace StepChain

namespace Project

variable {p : Project}

theorem check_of_ofText {text : String} (h : ofText text = .ok p) : p.check = .ok () := by
  unfold ofText at h
  cases hread : (Toml.Table.ofText? text).bind ofTable? with
  | none => simp [hread] at h
  | some q =>
    simp only [hread] at h
    obtain ⟨⟨⟩, hcheck, hq⟩ := bind_eq_ok.1 h
    obtain rfl := Except.ok.inj hq
    exact hcheck

theorem layout_of_check (h : p.check = .ok ()) : p.layout.check = .ok () := by
  obtain ⟨⟨⟩, hlayout, -⟩ := bind_eq_ok.1 h
  exact mapError_eq_ok.1 hlayout

/-- **With a layout that can be used, a compiler fails only as its flow does.** -/
theorem faultOf_compiler (h : p.layout.check = .ok ()) : faultOf p.compiler = faultOf (p.flow .standard) := by
  rw [compiler]
  cases p.flow .standard with
  | error cause => rfl
  | ok flow =>
    obtain ⟨c, hc⟩ : ∃ c, Compiler.ofLayout flow p.layout ⟨p.strict, none⟩ = .ok c :=
      ⟨_, Compiler.ofLayout_eq_ok.2 ⟨h, rfl⟩⟩
    rw [ok_bind, hc]
    rfl

end Project

namespace Command

section

variable (files : FileView) (project : Option Path)

theorem plan_steps (blockType : Option String) : plan files (.steps project blockType) =
    (load files (project.getD defaultProject)).map fun c => .print (stepsText c blockType) := by
  rw [plan, load]
  cases readProject files (project.getD defaultProject) with
  | error fault => rfl
  | ok p =>
    rw [ok_bind, ok_bind]
    cases p.compiler <;> rfl

/-- `check` makes no compiler, and fails as if it did. -/
theorem exists_plan_check : ∃ text, plan files (.check project) =
    (load files (project.getD defaultProject)).map fun _ => .print text := by
  simp only [plan, load]
  cases hread : readProject files (project.getD defaultProject) with
  | error fault => exact ⟨"", rfl⟩
  | ok p =>
    obtain ⟨text, -, htext⟩ := readProject_eq_ok.1 hread
    have hfault := Project.faultOf_compiler (Project.layout_of_check (Project.check_of_ofText htext))
    simp only [ok_bind]
    cases hflow : p.flow .standard with
    | error cause =>
      rw [hflow] at hfault
      rw [faultOf_eq_some.1 hfault]
      exact ⟨"", rfl⟩
    | ok flow =>
      rw [hflow] at hfault
      obtain ⟨c, hc⟩ := faultOf_eq_none.1 hfault
      rw [hc]
      exact ⟨_, rfl⟩

end

section

variable {t : FileTree} {args : List String} {project : Option Path} {pages layers : List Path} {output : Option Path}

/-- The configuration status is that of the first two stages alone. -/
theorem code_ne_two_of_loads (hargs : Request.ofArguments? args = some (.process project pages layers output))
    {c : Compiler} (h : load t.view (project.getD defaultProject) = .ok c) : (run t args).1.code ≠ 2 := by
  obtain ⟨stage, fault, hstops⟩ | ⟨result, hpasses⟩ := stops_or_passes t.view (project.getD defaultProject) pages layers
  · rw [run_of_stops hargs hstops]
    intro hcode
    have hload := (load_eq_error pages layers).2 ⟨stage, hstops, hstops.exitCode_eq.symm.trans hcode⟩
    rw [h] at hload
    cases hload
  · obtain hcode | ⟨path, hwriting⟩ := run_of_plan (plan_of_passes hargs hpasses)
    · rw [hcode]
      decide
    · simp [hwriting, Outcome.failed, CommandFault.exitCode]

end

/-- **`check` is faithful.**  Over one project, it succeeds exactly if `steps` does and if `process` does not end with
the configuration status, and where it fails all three fail alike and change nothing. -/
theorem check_faithful {t : FileTree} {checking listing processing : List String}
    {checked listed processed : Option Path} {blockType : Option String} {pages layers : List Path} {output : Option Path}
    (hchecking : Request.ofArguments? checking = some (.check checked))
    (hlisting : Request.ofArguments? listing = some (.steps listed blockType))
    (hprocessing : Request.ofArguments? processing = some (.process processed pages layers output))
    (hlisted : listed.getD defaultProject = checked.getD defaultProject)
    (hprocessed : processed.getD defaultProject = checked.getD defaultProject) :
    ((run t checking).1.code = 0 ↔ (run t listing).1.code = 0) ∧
    ((run t checking).1.code = 0 ↔ (run t processing).1.code ≠ 2) ∧
    ((run t checking).1.code ≠ 0 → ∃ fault : CommandFault, fault.exitCode = 2 ∧
      run t checking = (.failed fault, t) ∧ run t listing = (.failed fault, t) ∧
      run t processing = (.failed fault, t)) := by
  obtain ⟨text, hcheck⟩ := exists_plan_check t.view checked
  have hsteps := plan_steps t.view listed blockType
  rw [hlisted] at hsteps
  cases hload : load t.view (checked.getD defaultProject) with
  | error fault =>
    rw [hload] at hcheck hsteps
    obtain ⟨stage, hstops, hstage⟩ := (load_eq_error pages layers).1 hload
    have hcode : fault.exitCode = 2 := hstops.exitCode_eq.trans hstage
    rw [← hprocessed] at hstops
    rw [run_of_error hchecking hcheck, run_of_error hlisting hsteps, run_of_stops hprocessing hstops]
    exact ⟨Iff.rfl, by simp [Outcome.failed, hcode], fun _ => ⟨fault, hcode, rfl, rfl, rfl⟩⟩
  | ok c =>
    rw [hload] at hcheck hsteps
    rw [← hprocessed] at hload
    have hprocess := code_ne_two_of_loads hprocessing hload
    rw [run_of_print hchecking hcheck, run_of_print hlisting hsteps]
    exact ⟨Iff.rfl, iff_of_true rfl hprocess, fun hne => absurd rfl hne⟩

/-- A project with a step that there is not. -/
def misspelt : FileTree :=
  ⟨[(["asset-flow.toml"], .file "[paths]\ndest=\"d\"\nstaging=\"s\"\n[steps]\njs=[\"concta\"]".toUTF8)], []⟩

/-- A project that checks is listed, and a page that is missing is no fault of it; one that does not check fails all
three commands. -/
theorem check_faithful_misspelt :
    ((run shelf ["steps"]).1.code = 0 ∧ (run shelf ["process", "-f", "gone.json"]).1.code ≠ 2) ∧
    ∃ fault : CommandFault, fault.exitCode = 2 ∧ run misspelt ["check"] = (.failed fault, misspelt) ∧
      run misspelt ["steps", "-t", "js"] = (.failed fault, misspelt) ∧
      run misspelt ["process", "-c", "asset-flow.toml", "-f", "gone.json"] = (.failed fault, misspelt) := by
  have hchecking : Request.ofArguments? ["check"] = some (.check none) := by decide +kernel
  constructor
  · have hlisting : Request.ofArguments? ["steps"] = some (.steps none none) := by decide +kernel
    have hprocessing : Request.ofArguments? ["process", "-f", "gone.json"] =
        some (.process none [⟨"gone.json"⟩] [] none) := by decide +kernel
    have hcode : (run shelf ["check"]).1.code = 0 := by decide +kernel
    obtain ⟨hsteps, hprocess, -⟩ := check_faithful (t := shelf) hchecking hlisting hprocessing rfl rfl
    exact ⟨hsteps.1 hcode, hprocess.1 hcode⟩
  · have hlisting : Request.ofArguments? ["steps", "-t", "js"] = some (.steps none (some "js")) := by decide +kernel
    have hprocessing : Request.ofArguments? ["process", "-c", "asset-flow.toml", "-f", "gone.json"] =
        some (.process (some ⟨"asset-flow.toml"⟩) [⟨"gone.json"⟩] [] none) := by decide +kernel
    have hcode : (run misspelt ["check"]).1.code ≠ 0 := by decide +kernel
    obtain ⟨-, -, hfails⟩ := check_faithful (t := misspelt) hchecking hlisting hprocessing rfl rfl
    exact hfails hcode

end Command

end StepChain
