import StepChain.Command.Outcome
import StepChain.Proofs.Compile.Resolution
import StepChain.Proofs.FileTree
/-!
# The stages of `process`

`Stops` says at which stage `process` stops and why, all stages before having passed, and `Passes` what it makes if
they all pass.  The two cover every case (`compile_eq_error`, `compile_eq_ok`).  So the first stage that fails decides
the exit code, with nothing printed or written, and a run in which none fails emits one text, to whichever place it is
sent (`process_decided`).
-/
namespace StepChain.Command

/-- The stages of `process`, in order. -/
inductive Stage where
  | project
  | flow
  | pages
  | layers
  | compilation

def Stage.exitCode : Stage → Nat
  | .project | .flow => 2
  | .pages | .layers => 1
  | .compilation => 3

/-! ### What there is to read -/

section

variable (files : FileView)

def ReadsProject (path : Path) (p : Project) : Prop :=
  ∃ text, files.text? path = some text ∧ Project.ofText text = .ok p

def ReadsPage (path : Path) (page : Page) : Prop :=
  ∃ text, files.text? path = some text ∧ Page.ofText? text = some page

def ReadsLayer (path : Path) (layer : Json) : Prop :=
  ∃ text, files.text? path = some text ∧ Json.ofText? text = some layer

/-- A project file that can be read, with a flow that can be built. -/
def Loads (path : Path) (c : Compiler) : Prop := ∃ p, ReadsProject files path p ∧ p.compiler = .ok c

/-- What the first two stages come to. -/
def load (path : Path) : Except CommandFault Compiler := do
  (← readProject files path).compiler.mapError .configuration

/-- Why a page cannot be loaded. -/
inductive PageFails (path : Path) : PageFault → Prop where
  | unreadable (h : files.text? path = none) : PageFails path (.unreadable path)
  | malformed {text : String} (htext : files.text? path = some text) (h : Page.ofText? text = none) :
      PageFails path (.malformed path)

/-- The configuration that layers amount to: an object, or nothing at all. -/
inductive AmountsTo (layers : List Json) : Config → Prop where
  | object {config : Config} (h : Json.layered layers = .object config) : AmountsTo layers config
  | nothing (h : Json.layered layers = .null) : AmountsTo layers .nil

variable (project : Path) (pages layers : List Path)

/-- Where `process` stops and with which fault; every stage before has passed, and within a stage every item before. -/
inductive Stops : Stage → CommandFault → Prop where
  | unreadable (h : files.text? project = none) : Stops .project (.loading project .unreadable)
  | unusable {text : String} {cause : ProjectFault} (htext : files.text? project = some text)
      (h : Project.ofText text = .error cause) : Stops .project (.loading project cause)
  | flow {p : Project} {cause : ProjectFault} (hproject : ReadsProject files project p)
      (h : p.compiler = .error cause) : Stops .flow (.configuration cause)
  | page {c : Compiler} {before after : List Path} {path : Path} {cause : PageFault} (hloads : Loads files project c)
      (hsplit : pages = before ++ path :: after) (hbefore : ∀ q ∈ before, ∃ page, ReadsPage files q page)
      (h : PageFails files path cause) : Stops .pages (.page cause)
  | layer {c : Compiler} {loaded : List Page} {before after : List Path} {path : Path} (hloads : Loads files project c)
      (hpages : List.Forall₂ (ReadsPage files) pages loaded) (hsplit : layers = before ++ path :: after)
      (hbefore : ∀ q ∈ before, ∃ v, ReadsLayer files q v) (h : ∀ v, ¬ ReadsLayer files path v) :
      Stops .layers (.layer path)
  | notObject {c : Compiler} {loaded : List Page} {values : List Json} (hloads : Loads files project c)
      (hpages : List.Forall₂ (ReadsPage files) pages loaded)
      (hlayers : List.Forall₂ (ReadsLayer files) layers values) (h : ∀ config, ¬ AmountsTo values config) :
      Stops .layers .layersNotObject
  | compilation {c : Compiler} {loaded : List Page} {values : List Json} {config : Config} {cause : SourceFault}
      (hloads : Loads files project c) (hpages : List.Forall₂ (ReadsPage files) pages loaded)
      (hlayers : List.Forall₂ (ReadsLayer files) layers values) (hconfig : AmountsTo values config)
      (h : ((c.update files.present loaded).run.run config).1 = .error cause) : Stops .compilation (.resolution cause)

/-- All stages pass: the pages are compiled into the configuration that the layers amount to. -/
inductive Passes : Config → Prop where
  | intro {c : Compiler} {loaded : List Page} {values : List Json} {config result : Config}
      (hloads : Loads files project c) (hpages : List.Forall₂ (ReadsPage files) pages loaded)
      (hlayers : List.Forall₂ (ReadsLayer files) layers values) (hconfig : AmountsTo values config)
      (h : (c.update files.present loaded).run.run config = (.ok (), result)) : Passes result

end

/-! ### One file -/

section

variable {files : FileView} {path : Path}

theorem readProject_eq_ok {p : Project} : readProject files path = .ok p ↔ ReadsProject files path p := by
  unfold readProject ReadsProject
  cases files.text? path <;> simp [mapError_eq_ok]

theorem readProject_eq_error {fault : CommandFault} : readProject files path = .error fault ↔
    files.text? path = none ∧ .loading path .unreadable = fault ∨
      ∃ text cause, files.text? path = some text ∧ Project.ofText text = .error cause ∧
        .loading path cause = fault := by
  unfold readProject
  cases files.text? path <;> simp [mapError_eq_error]

theorem load_eq_ok {c : Compiler} : load files path = .ok c ↔ Loads files path c := by
  simp only [load, Loads, bind_eq_ok, mapError_eq_ok, readProject_eq_ok]

theorem readPage_eq_ok {page : Page} : readPage files path = .ok page ↔ ReadsPage files path page := by
  unfold readPage ReadsPage
  cases files.text? path with
  | none => simp
  | some text => cases h : Page.ofText? text <;> simp [h]

theorem readPage_eq_error {cause : PageFault} : readPage files path = .error cause ↔ PageFails files path cause := by
  unfold readPage
  constructor
  · intro h
    cases htext : files.text? path with
    | none =>
      rw [htext] at h
      cases h
      exact .unreadable htext
    | some text =>
      cases hpage : Page.ofText? text with
      | none =>
        simp only [htext, hpage] at h
        cases h
        exact .malformed htext hpage
      | some page => simp [htext, hpage] at h
  · rintro (htext | ⟨htext, hpage⟩)
    · rw [htext]
    · simp only [htext, hpage]

theorem readLayer_eq_ok {layer : Json} : readLayer files path = .ok layer ↔ ReadsLayer files path layer := by
  unfold readLayer ReadsLayer
  rw [← Option.bind_eq_some_iff]
  cases (files.text? path).bind Json.ofText? <;> simp

theorem readLayer_eq_error {fault : CommandFault} :
    readLayer files path = .error fault ↔ (∀ v, ¬ ReadsLayer files path v) ∧ .layer path = fault := by
  unfold readLayer ReadsLayer
  simp only [← Option.bind_eq_some_iff]
  cases (files.text? path).bind Json.ofText? <;> simp

theorem configOfLayers_eq_ok {values : List Json} {config : Config} :
    configOfLayers values = .ok config ↔ AmountsTo values config := by
  unfold configOfLayers
  constructor
  · intro h
    cases hlayered : Json.layered values with
    | object o =>
      rw [hlayered] at h
      cases h
      exact .object hlayered
    | null =>
      rw [hlayered] at h
      cases h
      exact .nothing hlayered
    | _ => simp [hlayered] at h
  · rintro (h | h)
    · rw [h]
    · rw [h]

theorem configOfLayers_eq_error {values : List Json} {fault : CommandFault} :
    configOfLayers values = .error fault ↔ (∀ config, ¬ AmountsTo values config) ∧ .layersNotObject = fault := by
  simp only [← configOfLayers_eq_ok]
  unfold configOfLayers
  cases Json.layered values <;> simp

end

/-! ### All stages -/

section

variable {files : FileView} {project : Path} {pages layers : List Path}

theorem outcome_eq_ok {c : Compiler} {present : Path → Bool} {loaded : List Page} {config result : Config} :
    (c.run present loaded config).outcome = .ok result ↔
      (c.update present loaded).run.run config = (.ok (), result) := by
  refine ⟨fun h => ?_, c.run_of_update present⟩
  rw [Compiler.update_eq_run, h]

theorem outcome_eq_error {c : Compiler} {present : Path → Bool} {loaded : List Page} {config : Config}
    {cause : SourceFault} : (c.run present loaded config).outcome = .error cause ↔
      ((c.update present loaded).run.run config).1 = .error cause := by
  rw [Compiler.update_eq_run]
  cases (c.run present loaded config).outcome <;> simp

theorem mapM_readPage_eq_ok {loaded : List Page} :
    (pages.mapM fun path => (readPage files path).mapError CommandFault.page) = .ok loaded ↔
      List.Forall₂ (ReadsPage files) pages loaded := by
  simp only [mapM_eq_ok_iff, mapError_eq_ok, readPage_eq_ok]

theorem mapM_readLayer_eq_ok {values : List Json} :
    layers.mapM (readLayer files) = .ok values ↔ List.Forall₂ (ReadsLayer files) layers values := by
  simp only [mapM_eq_ok_iff, readLayer_eq_ok]

/-- **`process` makes a configuration exactly if all its stages pass.** -/
theorem compile_eq_ok {result : Config} :
    compile files project pages layers = .ok result ↔ Passes files project pages layers result := by
  simp only [compile, bind_eq_ok, mapError_eq_ok, readProject_eq_ok, mapM_readPage_eq_ok, mapM_readLayer_eq_ok,
    configOfLayers_eq_ok, outcome_eq_ok]
  constructor
  · rintro ⟨p, hp, c, hc, loaded, hpages, values, hlayers, config, hconfig, h⟩
    exact ⟨⟨p, hp, hc⟩, hpages, hlayers, hconfig, h⟩
  · rintro ⟨⟨p, hp, hc⟩, hpages, hlayers, hconfig, h⟩
    exact ⟨p, hp, _, hc, _, hpages, _, hlayers, _, hconfig, h⟩

/-- **It fails exactly as the first of its stages that fails.** -/
theorem compile_eq_error {fault : CommandFault} :
    compile files project pages layers = .error fault ↔ ∃ stage, Stops files project pages layers stage fault := by
  simp only [compile, bind_eq_error, mapError_eq_ok, mapError_eq_error, readProject_eq_ok, readProject_eq_error,
    mapM_readPage_eq_ok, mapM_readLayer_eq_ok, configOfLayers_eq_ok, configOfLayers_eq_error, outcome_eq_error,
    mapM_eq_error_iff, readPage_eq_ok, readPage_eq_error, readLayer_eq_ok, readLayer_eq_error]
  constructor
  · rintro ((⟨hnone, rfl⟩ | ⟨text, cause, htext, h, rfl⟩) | ⟨p, hp, ⟨cause, h, rfl⟩ | ⟨c, hc, hrest⟩⟩)
    · exact ⟨_, .unreadable hnone⟩
    · exact ⟨_, .unusable htext h⟩
    · exact ⟨_, .flow hp h⟩
    have hloads : Loads files project c := ⟨p, hp, hc⟩
    obtain ⟨before, path, after, hsplit, hbefore, cause, h, rfl⟩ | ⟨loaded, hpages, hrest⟩ := hrest
    · exact ⟨_, .page hloads hsplit hbefore h⟩
    obtain ⟨before, path, after, hsplit, hbefore, h, rfl⟩ | ⟨values, hlayers, hrest⟩ := hrest
    · exact ⟨_, .layer hloads hpages hsplit hbefore h⟩
    obtain ⟨h, rfl⟩ | ⟨config, hconfig, cause, h, rfl⟩ := hrest
    · exact ⟨_, .notObject hloads hpages hlayers h⟩
    · exact ⟨_, .compilation hloads hpages hlayers hconfig h⟩
  · rintro ⟨stage, hstops⟩
    cases hstops with
    | unreadable h => exact .inl (.inl ⟨h, rfl⟩)
    | unusable htext h => exact .inl (.inr ⟨_, _, htext, h, rfl⟩)
    | flow hp h => exact .inr ⟨_, hp, .inl ⟨_, h, rfl⟩⟩
    | page hloads hsplit hbefore h =>
      obtain ⟨p, hp, hc⟩ := hloads
      exact .inr ⟨p, hp, .inr ⟨_, hc, .inl ⟨_, _, _, hsplit, hbefore, _, h, rfl⟩⟩⟩
    | layer hloads hpages hsplit hbefore h =>
      obtain ⟨p, hp, hc⟩ := hloads
      exact .inr ⟨p, hp, .inr ⟨_, hc, .inr ⟨_, hpages, .inl ⟨_, _, _, hsplit, hbefore, h, rfl⟩⟩⟩⟩
    | notObject hloads hpages hlayers h =>
      obtain ⟨p, hp, hc⟩ := hloads
      exact .inr ⟨p, hp, .inr ⟨_, hc, .inr ⟨_, hpages, .inr ⟨_, hlayers, .inl ⟨h, rfl⟩⟩⟩⟩⟩
    | compilation hloads hpages hlayers hconfig h =>
      obtain ⟨p, hp, hc⟩ := hloads
      exact .inr ⟨p, hp, .inr ⟨_, hc, .inr ⟨_, hpages, .inr ⟨_, hlayers, .inr ⟨_, hconfig, _, h, rfl⟩⟩⟩⟩⟩

/-- The first two stages ask nothing of the pages and layers. -/
theorem load_eq_error (pages layers : List Path) {fault : CommandFault} : load files project = .error fault ↔
    ∃ stage, Stops files project pages layers stage fault ∧ stage.exitCode = 2 := by
  simp only [load, bind_eq_error, mapError_eq_error, readProject_eq_ok, readProject_eq_error]
  constructor
  · rintro ((⟨hnone, rfl⟩ | ⟨text, cause, htext, h, rfl⟩) | ⟨p, hp, cause, h, rfl⟩)
    · exact ⟨_, .unreadable hnone, rfl⟩
    · exact ⟨_, .unusable htext h, rfl⟩
    · exact ⟨_, .flow hp h, rfl⟩
  · rintro ⟨stage, hstops, hcode⟩
    cases hstops with
    | unreadable h => exact .inl (.inl ⟨h, rfl⟩)
    | unusable htext h => exact .inl (.inr ⟨_, _, htext, h, rfl⟩)
    | flow hp h => exact .inr ⟨_, hp, _, h, rfl⟩
    | _ => cases hcode

theorem Stops.exitCode_eq {stage : Stage} {fault : CommandFault} (h : Stops files project pages layers stage fault) :
    fault.exitCode = stage.exitCode := by
  cases h <;> rfl

theorem stops_or_passes (files : FileView) (project : Path) (pages layers : List Path) :
    (∃ stage fault, Stops files project pages layers stage fault) ∨
      ∃ result, Passes files project pages layers result := by
  cases h : compile files project pages layers with
  | error fault =>
    obtain ⟨stage, hstops⟩ := compile_eq_error.1 h
    exact .inl ⟨stage, fault, hstops⟩
  | ok result => exact .inr ⟨result, compile_eq_ok.1 h⟩

end

/-! ### Command lines -/

section

variable {t : FileTree} {args : List String}

theorem run_of_error {request : Request} (hargs : Request.ofArguments? args = some request) {fault : CommandFault}
    (h : plan t.view request = .error fault) : run t args = (.failed fault, t) := by
  rw [run, planArguments, hargs]
  simp only [h]

theorem run_of_print {request : Request} (hargs : Request.ofArguments? args = some request) {text : String}
    (h : plan t.view request = .ok (.print text)) : run t args = (.printed text, t) := by
  rw [run, planArguments, hargs]
  simp only [h]

/-- Once worked out, a command can only fail to write. -/
theorem run_of_plan {rest : Plan} (h : planArguments t.view args = .ok rest) :
    (run t args).1.code = 0 ∨ ∃ path, (run t args).1 = .failed (.writing path) := by
  rw [run, h]
  cases rest with
  | print text => exact .inl rfl
  | write path text =>
    dsimp only
    cases t.write? path text.toUTF8 with
    | some t' => exact .inl rfl
    | none => exact .inr ⟨path, rfl⟩

variable {project : Option Path} {pages layers : List Path} {output : Option Path}

theorem run_of_stops (hargs : Request.ofArguments? args = some (.process project pages layers output)) {stage : Stage}
    {fault : CommandFault} (h : Stops t.view (project.getD defaultProject) pages layers stage fault) :
    run t args = (.failed fault, t) := by
  apply run_of_error hargs
  rw [plan, compile_eq_error.2 ⟨stage, h⟩]
  rfl

theorem plan_of_passes (hargs : Request.ofArguments? args = some (.process project pages layers output))
    {result : Config} (h : Passes t.view (project.getD defaultProject) pages layers result) :
    planArguments t.view args =
      .ok (output.elim (.print (configText result)) fun path => .write path (configText result)) := by
  rw [planArguments, hargs]
  simp only [plan, compile_eq_ok.2 h]
  cases output <;> rfl

theorem run_of_passes (hargs : Request.ofArguments? args = some (.process project pages layers none)) {result : Config}
    (h : Passes t.view (project.getD defaultProject) pages layers result) :
    run t args = (.printed (configText result), t) := by
  rw [run, plan_of_passes hargs h, Option.elim_none]

theorem run_of_passes_writing {path : Path}
    (hargs : Request.ofArguments? args = some (.process project pages layers (some path))) {result : Config}
    (h : Passes t.view (project.getD defaultProject) pages layers result) {t' : FileTree}
    (hwrite : t.write? path (configText result).toUTF8 = some t') : run t args = (written path, t') := by
  rw [run, plan_of_passes hargs h, Option.elim_some]
  simp only [hwrite]

/-- **The outcome of `process`.**  It stops at one of its stages or passes them all.  Where it stops, the stage decides
the exit code, nothing is printed and no file changes.  If it passes, the text of the configuration goes to standard
output, or to the file that is asked for if that can be written, and is the same text either way. -/
theorem process_decided (hargs : Request.ofArguments? args = some (.process project pages layers output)) :
    ((∃ stage fault, Stops t.view (project.getD defaultProject) pages layers stage fault) ∨
      ∃ result, Passes t.view (project.getD defaultProject) pages layers result) ∧
    (∀ stage fault, Stops t.view (project.getD defaultProject) pages layers stage fault →
      run t args = (.failed fault, t) ∧ (run t args).1.code = stage.exitCode ∧ (run t args).1.stdout = "") ∧
    ∀ result, Passes t.view (project.getD defaultProject) pages layers result →
      (output = none → run t args = (.printed ((Json.object result).pretty ++ "\n"), t)) ∧
      ∀ path t', output = some path → t.write? path ((Json.object result).pretty ++ "\n").toUTF8 = some t' →
        run t args = (written path, t') ∧
        ∀ printing, Request.ofArguments? printing = some (.process project pages layers none) →
          t'.bytes? path = some (run t printing).1.stdout.toUTF8 := by
  refine ⟨stops_or_passes _ _ _ _, fun stage fault h => ?_, fun result h => ⟨?_, ?_⟩⟩
  · rw [run_of_stops hargs h]
    exact ⟨rfl, h.exitCode_eq, rfl⟩
  · rintro rfl
    exact run_of_passes hargs h
  · rintro path t' rfl hwrite
    refine ⟨run_of_passes_writing hargs h hwrite, fun printing hprinting => ?_⟩
    rw [run_of_passes hprinting h, FileTree.bytes?_write? hwrite]
    rfl

/-- A project with a page, and a layer that is no configuration beside two that are. -/
def shelf : FileTree :=
  ⟨[(["asset-flow.toml"], .file "[paths]\ndest=\"d\"\nstaging=\"s\"\n[steps]\njs=[\"concat\"]".toUTF8),
    (["page.json"], .file "[\"p.html\",\"\",[[\"js\",\"site.js\",[\"a.js\"]]]]".toUTF8),
    (["base.json"], .file "\x7b\"watch\":1\x7d".toUTF8),
    (["empty.json"], .file "\x7b\x7d".toUTF8),
    (["list.json"], .file "[1]".toUTF8)], []⟩

theorem exists_loads_shelf : ∃ c, Loads shelf.view defaultProject c := by
  obtain ⟨c, h⟩ := faultOf_eq_none.1 (show faultOf (load shelf.view defaultProject) = none by decide +kernel)
  exact ⟨c, load_eq_ok.1 h⟩

theorem exists_readsPage_shelf : ∃ page, ReadsPage shelf.view ⟨"page.json"⟩ page := by
  obtain ⟨page, h⟩ := faultOf_eq_none.1 (show faultOf (readPage shelf.view ⟨"page.json"⟩) = none by decide +kernel)
  exact ⟨page, readPage_eq_ok.1 h⟩

theorem process_decided_shelf :
    (∃ fault, Stops shelf.view defaultProject [⟨"page.json"⟩, ⟨"gone.json"⟩] [⟨"list.json"⟩] .pages fault ∧
      run shelf ["process", "-f", "page.json", "-fgone.json", "--merge", "list.json"] = (.failed fault, shelf)) ∧
    ∃ t', run shelf ["process", "-f", "page.json", "--merge", "base.json", "-o", "out.json"] =
        (written ⟨"out.json"⟩, t') ∧
      t'.bytes? ⟨"out.json"⟩ =
        some (run shelf ["process", "-f", "page.json", "--merge", "base.json"]).1.stdout.toUTF8 := by
  obtain ⟨c, hloads⟩ := exists_loads_shelf
  constructor
  · have hargs : Request.ofArguments? ["process", "-f", "page.json", "-fgone.json", "--merge", "list.json"] =
        some (.process none [⟨"page.json"⟩, ⟨"gone.json"⟩] [⟨"list.json"⟩] none) := by decide +kernel
    have hsplit : [⟨"page.json"⟩, ⟨"gone.json"⟩] = [⟨"page.json"⟩] ++ (⟨"gone.json"⟩ : Path) :: [] := rfl
    have h : Stops shelf.view defaultProject [⟨"page.json"⟩, ⟨"gone.json"⟩] [⟨"list.json"⟩] .pages
        (.page (.unreadable ⟨"gone.json"⟩)) :=
      .page hloads hsplit (by simpa using exists_readsPage_shelf) (.unreadable (by decide +kernel))
    obtain ⟨-, hstops, -⟩ := process_decided (t := shelf) hargs
    exact ⟨_, h, (hstops _ _ h).1⟩
  · have hargs : Request.ofArguments? ["process", "-f", "page.json", "--merge", "base.json", "-o", "out.json"] =
        some (.process none [⟨"page.json"⟩] [⟨"base.json"⟩] (some ⟨"out.json"⟩)) := by decide +kernel
    obtain ⟨hcases, hstops, hpasses⟩ := process_decided (t := shelf) hargs
    have hnew : shelf.place? ⟨"out.json"⟩ = none ∧ shelf.newPlace? ⟨"out.json"⟩ = some ["out.json"] := by
      decide +kernel
    have hwrite : ∀ content, shelf.write? ⟨"out.json"⟩ content = some (shelf.set ["out.json"] (.file content)) := by
      intro content
      rw [FileTree.write?, hnew.1, hnew.2]
      rfl
    have hcode : (run shelf ["process", "-f", "page.json", "--merge", "base.json", "-o", "out.json"]).1.code = 0 := by
      decide +kernel
    obtain ⟨stage, fault, h⟩ | ⟨result, h⟩ := hcases
    · have := (hstops _ _ h).2.1
      rw [hcode] at this
      cases stage <;> cases this
    · obtain ⟨hrun, hsame⟩ := (hpasses result h).2 _ _ rfl (hwrite _)
      exact ⟨_, hrun, hsame _ (by decide +kernel)⟩

end

end StepChain.Command
