import StepChain.Compile.Traced
import StepChain.Compile.Wiring
import StepChain.Flow.Basic
import StepChain.Generated
import StepChain.Layout
/-!
# Compilation

A `Compiler` is a flow with the places to search and to write.  For each block of each page it resolves the sources,
wires the block type's chain and collects what the steps ask for in their generated sections; only when every block is
done are the sections set in the caller's configuration, so a reference that leads nowhere changes nothing.

Whatever calls the hook, a step or a post-processor is traced, and that is what a run is made of.  Beside each traced
function stands its plain form, with the lemma that the two come to the same: what a run generates is read off the plain
forms, and what it calls off the traced ones.

Main statements: `Search.outcome_sourcesTraced`, `Flow.value_generateTraced`, `Compiler.outcome_runJobs_cons`,
`Compiler.calls_runJobs_cons`.
-/
namespace StepChain

open Json (Object)

/-- How sources are resolved: whether a missing one is an error, and a hook that may decide first. -/
structure Behavior where
  strict : Bool
  hook : Option Hook

structure Compiler where
  flow : Flow
  targets : Targets
  search : Search

structure Job where
  page : Page
  block : Block

def jobsOf (pages : List Page) : List Job := pages.flatMap fun page => page.blocks.map (Job.mk page)

/-! ### Resolving the sources of a block -/

namespace Search

/-- What the hook decides, by asking it. -/
def verdictTraced (s : Search) (page : Page) (block : Block) (reference : String) : Traced Verdict :=
  match s.hook with
  | some hook => hook.ask (s.query page block reference)
  | none => pure .defer

theorem value_verdictTraced (s : Search) (page : Page) (block : Block) (reference : String) :
    (s.verdictTraced page block reference).value = s.verdict page block reference := by
  unfold verdictTraced verdict
  cases s.hook <;> rfl

def findTraced (s : Search) (present : Path → Bool) (page : Page) (block : Block) (reference : String) :
    Run Path := do
  let verdict ← s.verdictTraced page block reference
  MonadExcept.ofExcept (s.settle present page reference verdict)

theorem outcome_findTraced (s : Search) (present : Path → Bool) (page : Page) (block : Block) (reference : String) :
    (s.findTraced present page block reference).outcome = s.find present page block reference := by
  rw [findTraced, Run.outcome_bind, Run.outcome_lift, value_verdictTraced, find]
  exact Run.outcome_ofExcept _

def sourceTraced (s : Search) (present : Path → Bool) (job : Job) (reference : String) : Run String := do
  let path ← s.findTraced present job.page job.block reference
  return path.text

theorem outcome_sourceTraced (s : Search) (present : Path → Bool) (job : Job) (reference : String) :
    (s.sourceTraced present job reference).outcome = (s.find present job.page job.block reference).map Path.text := by
  rw [sourceTraced, Run.outcome_bind_pure, outcome_findTraced]

/-- The sources of a block, every reference resolved; the first that leads nowhere is the error. -/
def sourcesTraced (s : Search) (present : Path → Bool) (job : Job) : Run (List String) :=
  job.block.src.mapM (s.sourceTraced present job)

def sources (s : Search) (present : Path → Bool) (job : Job) : Except SourceFault (List String) :=
  job.block.src.mapM fun reference => (s.find present job.page job.block reference).map Path.text

theorem outcome_sourcesTraced (s : Search) (present : Path → Bool) (job : Job) :
    (s.sourcesTraced present job).outcome = s.sources present job := by
  rw [sourcesTraced, Run.outcome_mapM, sources]
  simp only [outcome_sourceTraced]

/-- The calls of the hook for a block. -/
def hookCalls (s : Search) (present : Path → Bool) (job : Job) : List Call := (s.sourcesTraced present job).calls

end Search

/-! ### Collecting in generated sections -/

/-- Adds what a step asks for to its section; only objects count. -/
def Position.collectTraced (p : Position) (current : Object) : Traced Object :=
  p.mappings.foldlM (fun current m => do
    let fragment ← p.step.call m
    return (fragment.object?.map (addFragment current)).getD current) current

def Position.collect (p : Position) (current : Object) : Object :=
  p.mappings.foldl (fun current m => ((p.step.fragment m).object?.map (addFragment current)).getD current) current

theorem Position.value_collectTraced (p : Position) (current : Object) :
    (p.collectTraced current).value = p.collect current := Traced.value_foldlM _ _ _

def applyPostsTraced (block : Block) (posts : List Post) (current : Object) : Traced Object :=
  posts.foldlM (fun current post => post.call current block) current

def applyPosts (block : Block) (posts : List Post) (current : Object) : Object :=
  posts.foldl (fun current post => post.apply current block) current

theorem value_applyPostsTraced (block : Block) (posts : List Post) (current : Object) :
    (applyPostsTraced block posts current).value = applyPosts block posts current := Traced.value_foldlM _ _ _

namespace Flow

/-- A step's section after one of its positions in a block: its post-processors follow when its fragments are in. -/
def sectionAfterTraced (flow : Flow) (block : Block) (p : Position) (current : Object) : Traced Object := do
  let collected ← p.collectTraced current
  applyPostsTraced block (flow.postsAfter block.kind p.step.name) collected

def sectionAfter (flow : Flow) (block : Block) (p : Position) (current : Object) : Object :=
  applyPosts block (flow.postsAfter block.kind p.step.name) (p.collect current)

theorem value_sectionAfterTraced (flow : Flow) (block : Block) (p : Position) (current : Object) :
    (flow.sectionAfterTraced block p current).value = flow.sectionAfter block p current := by
  rw [sectionAfterTraced, Traced.value_bind, value_applyPostsTraced, Position.value_collectTraced, sectionAfter]

def generatePositionTraced (flow : Flow) (block : Block) (generated : Object) (p : Position) : Traced Object := do
  let current ← flow.sectionAfterTraced block p (entryMembers (generated.get? p.step.name))
  return generated.insert p.step.name (.object current)

def generatePosition (flow : Flow) (block : Block) (generated : Object) (p : Position) : Object :=
  generated.insert p.step.name
    (.object (flow.sectionAfter block p (entryMembers (generated.get? p.step.name))))

theorem value_generatePositionTraced (flow : Flow) (block : Block) (generated : Object) (p : Position) :
    (flow.generatePositionTraced block generated p).value = flow.generatePosition block generated p := by
  rw [generatePositionTraced, Traced.value_bind, Traced.value_pure, value_sectionAfterTraced, generatePosition]

def generateTraced (flow : Flow) (block : Block) (positions : List Position) (generated : Object) : Traced Object :=
  positions.foldlM (flow.generatePositionTraced block) generated

def generate (flow : Flow) (block : Block) (positions : List Position) (generated : Object) : Object :=
  positions.foldl (flow.generatePosition block) generated

theorem value_generateTraced (flow : Flow) (block : Block) (positions : List Position) (generated : Object) :
    (flow.generateTraced block positions generated).value = flow.generate block positions generated := by
  rw [generateTraced, Traced.value_foldlM, generate]
  simp only [value_generatePositionTraced]

/-- A block makes the calls of one position after another. -/
theorem calls_generateTraced_cons (flow : Flow) (block : Block) (p : Position) (positions : List Position)
    (generated : Object) :
    (flow.generateTraced block (p :: positions) generated).calls =
      (flow.sectionAfterTraced block p (entryMembers (generated.get? p.step.name))).calls ++
        (flow.generateTraced block positions (flow.generatePosition block generated p)).calls := by
  rw [generateTraced, Traced.calls_foldlM_cons, value_generatePositionTraced, generatePositionTraced,
    Traced.calls_bind, Traced.calls_pure, List.append_nil, generateTraced]

end Flow

/-! ### Runs -/

namespace Compiler

def ofLayout (flow : Flow) (layout : Layout) (behavior : Behavior) : Except ConfigFault Compiler := do
  layout.check
  return ⟨flow, ⟨layout.dest, layout.staging⟩, ⟨layout.rootList, behavior.strict, behavior.hook⟩⟩

/-- The positions of a block's chain with their mappings; a type without a chain has none. -/
def positions (c : Compiler) (block : Block) (sources : List String) : List Position :=
  c.targets.wire block.dest (c.flow.chainOf block.kind) sources

/-- Compiles a block into generated sections; nothing is generated before all its references are resolved. -/
def runJob (c : Compiler) (present : Path → Bool) (generated : Object) (job : Job) : Run Object := do
  let sources ← c.search.sourcesTraced present job
  c.flow.generateTraced job.block (c.positions job.block sources) generated

/-- Compiles blocks one after another into generated sections. -/
def runJobs (c : Compiler) (present : Path → Bool) (jobs : List Job) (generated : Object) : Run Object :=
  jobs.foldlM (c.runJob present) generated

def run (c : Compiler) (present : Path → Bool) (pages : List Page) (config : Config) : Run Config := do
  let generated ← c.runJobs present (jobsOf pages) .nil
  return config.withGenerated generated

/-- Compiles pages into the caller's configuration in place; it is written to only once every block is done. -/
def update (c : Compiler) (present : Path → Bool) (pages : List Page) : ExceptT SourceFault (StateM Config) Unit := do
  let generated ← ExceptT.mk (pure (c.runJobs present (jobsOf pages) .nil).outcome)
  modify fun config => config.withGenerated generated

def updatePage (c : Compiler) (present : Path → Bool) (page : Page) : ExceptT SourceFault (StateM Config) Unit :=
  c.update present [page]

/-- The steps of a block type's chain, or with no type every step once. -/
def steps (c : Compiler) : Option String → List Step
  | some blockType => c.flow.chainOf blockType
  | none => c.flow.distinctSteps

section

variable (c : Compiler) (present : Path → Bool)

theorem runJobs_cons (job : Job) (jobs : List Job) (generated : Object) :
    c.runJobs present (job :: jobs) generated = c.runJob present generated job >>= c.runJobs present jobs := rfl

theorem outcome_runJob (generated : Object) (job : Job) : (c.runJob present generated job).outcome =
    (c.search.sources present job).map fun sources =>
      c.flow.generate job.block (c.positions job.block sources) generated := by
  rw [runJob, Run.outcome_bind, Search.outcome_sourcesTraced]
  simp only [Run.outcome_lift, Flow.value_generateTraced]
  cases c.search.sources present job <;> rfl

/-- **One block and the rest**: a block whose references lead somewhere is generated for, and the first that does not
stops the run. -/
theorem outcome_runJobs_cons (job : Job) (jobs : List Job) (generated : Object) :
    (c.runJobs present (job :: jobs) generated).outcome =
      match c.search.sources present job with
      | .error e => .error e
      | .ok sources =>
        (c.runJobs present jobs (c.flow.generate job.block (c.positions job.block sources) generated)).outcome := by
  rw [runJobs_cons, Run.outcome_bind, outcome_runJob]
  cases c.search.sources present job <;> rfl

/-- A block makes the calls of the hook first, and only if all references lead somewhere those that generate. -/
theorem calls_runJobs_cons (job : Job) (jobs : List Job) (generated : Object) :
    (c.runJobs present (job :: jobs) generated).calls = c.search.hookCalls present job ++
      match c.search.sources present job with
      | .error _ => []
      | .ok sources => (c.flow.generateTraced job.block (c.positions job.block sources) generated).calls ++
        (c.runJobs present jobs (c.flow.generate job.block (c.positions job.block sources) generated)).calls := by
  rw [runJobs_cons, Run.calls_bind, outcome_runJob, runJob, Run.calls_bind, Search.outcome_sourcesTraced]
  cases c.search.sources present job with
  | error e => exact List.append_nil _
  | ok sources =>
    dsimp only [Except.map]
    rw [Run.calls_lift, List.append_assoc, Search.hookCalls]

theorem outcome_run (pages : List Page) (config : Config) :
    (c.run present pages config).outcome = (c.runJobs present (jobsOf pages) .nil).outcome.map config.withGenerated :=
  Run.outcome_bind_pure _ _

theorem calls_run (pages : List Page) (config : Config) :
    (c.run present pages config).calls = (c.runJobs present (jobsOf pages) .nil).calls := Run.calls_bind_pure _ _

end

end Compiler

end StepChain
