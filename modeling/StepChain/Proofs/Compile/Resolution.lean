import StepChain.Compile.Basic
import StepChain.Proofs.Traversal
/-!
# Which reference decides a run

A run resolves the references of all blocks in order.  It fails with the fault of the first that leads nowhere
(`faultOf_runJobs`); if there is none it generates for block after block (`runJobs_of_resolved`).  A caller's
configuration is written to after that, so a run that fails leaves it as it was (`update_atomic`).
-/
namespace StepChain

open Json (Object)

/-- A reference together with the block that makes it and the page of the block. -/
structure Reference where
  page : Page
  block : Block
  text : String

def referencesOf (pages : List Page) : List Reference :=
  pages.flatMap fun page => page.blocks.flatMap fun block => block.src.map fun text => ⟨page, block, text⟩

def Job.references (job : Job) : List Reference := job.block.src.map fun text => ⟨job.page, job.block, text⟩

theorem mem_jobsOf {pages : List Page} {job : Job} :
    job ∈ jobsOf pages ↔ ∃ page ∈ pages, ∃ block ∈ page.blocks, Job.mk page block = job := by
  simp only [jobsOf, List.mem_flatMap, List.mem_map]

theorem flatMap_references_jobsOf (pages : List Page) : (jobsOf pages).flatMap Job.references = referencesOf pages := by
  rw [jobsOf, List.flatMap_assoc]
  simp only [List.flatMap_map]
  rfl

namespace Search

variable (s : Search) (present : Path → Bool)

def resolve (r : Reference) : Except SourceFault Path := s.find present r.page r.block r.text

theorem faultOf_sources (job : Job) :
    faultOf (s.sources present job) = job.references.findSome? fun r => faultOf (s.resolve present r) := by
  rw [sources, faultOf_mapM, Job.references, List.findSome?_map]
  congr 1
  funext text
  exact faultOf_map Path.text _

end Search

namespace Compiler

variable (c : Compiler) (present : Path → Bool)

/-- **A run fails as the first of its references that leads nowhere.** -/
theorem faultOf_runJobs : ∀ (jobs : List Job) (generated : Object),
    faultOf (c.runJobs present jobs generated).outcome =
      (jobs.flatMap Job.references).findSome? fun r => faultOf (c.search.resolve present r)
  | [], _ => rfl
  | job :: jobs, generated => by
    rw [List.flatMap_cons, List.findSome?_append, ← Search.faultOf_sources, outcome_runJobs_cons]
    cases c.search.sources present job with
    | error e => rfl
    | ok sources =>
      dsimp only
      rw [faultOf_runJobs jobs, faultOf, Option.none_or]

/-- The positions of a block whose references lead to `resolved`. -/
def positionsOf (resolved : Job → List String) (job : Job) : List Position := c.positions job.block (resolved job)

/-- The generated sections after blocks whose references lead to `resolved`. -/
def generateJobs (resolved : Job → List String) (jobs : List Job) (generated : Object) : Object :=
  jobs.foldl (fun generated job => c.flow.generate job.block (c.positionsOf resolved job) generated) generated

/-- **A run whose references all lead somewhere generates for one block after another.** -/
theorem runJobs_of_resolved (resolved : Job → List String) : ∀ (jobs : List Job) (generated : Object),
    (∀ job ∈ jobs, c.search.sources present job = .ok (resolved job)) →
    (c.runJobs present jobs generated).outcome = .ok (c.generateJobs resolved jobs generated)
  | [], _, _ => rfl
  | job :: jobs, generated, h => by
    rw [outcome_runJobs_cons, h job List.mem_cons_self, generateJobs, List.foldl_cons]
    exact runJobs_of_resolved resolved jobs _ fun j hj => h j (List.mem_cons_of_mem _ hj)

theorem exists_resolved {jobs : List Job} {generated result : Object}
    (h : (c.runJobs present jobs generated).outcome = .ok result) :
    ∃ resolved : Job → List String, ∀ job ∈ jobs, c.search.sources present job = .ok (resolved job) := by
  have hnone : faultOf (c.runJobs present jobs generated).outcome = none := faultOf_eq_none.2 ⟨result, h⟩
  rw [faultOf_runJobs, List.findSome?_eq_none_iff] at hnone
  have hall : ∀ job ∈ jobs, ∃ sources, c.search.sources present job = .ok sources := fun job hjob => by
    rw [← faultOf_eq_none, Search.faultOf_sources, List.findSome?_eq_none_iff]
    exact fun r hr => hnone r (List.mem_flatMap.2 ⟨job, hjob, hr⟩)
  refine ⟨fun job => (c.search.sources present job).toOption.getD [], fun job hjob => ?_⟩
  obtain ⟨sources, hsources⟩ := hall job hjob
  simp only [hsources]
  rfl

/-- A run that succeeds sets what it generated from the sources it found. -/
theorem exists_resolved_of_run {pages : List Page} {config result : Config}
    (h : (c.run present pages config).outcome = .ok result) :
    ∃ resolved : Job → List String, (∀ job ∈ jobsOf pages, c.search.sources present job = .ok (resolved job)) ∧
      result = config.withGenerated (c.generateJobs resolved (jobsOf pages) .nil) := by
  rw [outcome_run] at h
  cases hrun : (c.runJobs present (jobsOf pages) .nil).outcome with
  | error e =>
    rw [hrun] at h
    cases h
  | ok generated =>
    obtain ⟨resolved, hresolved⟩ := c.exists_resolved present hrun
    rw [c.runJobs_of_resolved present resolved _ _ hresolved] at h
    cases h
    exact ⟨resolved, hresolved, rfl⟩

/-! ### The caller's configuration -/

theorem update_eq (pages : List Page) (config : Config) :
    (c.update present pages).run.run config = match (c.runJobs present (jobsOf pages) .nil).outcome with
      | .ok generated => (.ok (), config.withGenerated generated)
      | .error e => (.error e, config) := by
  rw [update]
  cases (c.runJobs present (jobsOf pages) .nil).outcome <;> rfl

/-- A run in place sets the configuration to the result of the run. -/
theorem update_eq_run (pages : List Page) (config : Config) :
    (c.update present pages).run.run config = match (c.run present pages config).outcome with
      | .ok result => (.ok (), result)
      | .error e => (.error e, config) := by
  rw [update_eq, outcome_run]
  cases (c.runJobs present (jobsOf pages) .nil).outcome <;> rfl

theorem run_of_update {pages : List Page} {config result : Config}
    (h : (c.update present pages).run.run config = (.ok (), result)) :
    (c.run present pages config).outcome = .ok result := by
  rw [update_eq_run] at h
  cases hrun : (c.run present pages config).outcome with
  | ok result' =>
    rw [hrun, Prod.mk.injEq] at h
    rw [h.2]
  | error e =>
    rw [hrun, Prod.mk.injEq] at h
    cases h.1

end Compiler

/-- All or nothing: a failed run has one of the references to blame, answers with the fault of the first such and
leaves the configuration as it was. -/
structure Atomic (s : Search) (present : Path → Bool) (references : List Reference) (config : Config)
    (result : Except SourceFault Unit × Config) : Prop where
  fails_iff : (∃ e, result.1 = .error e) ↔ ∃ r ∈ references, ∃ e, s.resolve present r = .error e
  first : ∀ e, result.1 = .error e → ∃ before r after, references = before ++ r :: after ∧
    (∀ q ∈ before, ∃ p, s.resolve present q = .ok p) ∧ s.resolve present r = .error e
  unchanged : ∀ e, result.1 = .error e → result.2 = config

namespace Compiler

variable (c : Compiler) (present : Path → Bool)

theorem faultOf_update (pages : List Page) (config : Config) :
    faultOf ((c.update present pages).run.run config).1 =
      (referencesOf pages).findSome? fun r => faultOf (c.search.resolve present r) := by
  rw [← flatMap_references_jobsOf, ← c.faultOf_runJobs present (jobsOf pages) .nil, update_eq]
  cases (c.runJobs present (jobsOf pages) .nil).outcome <;> rfl

theorem atomic_update (pages : List Page) (config : Config) :
    Atomic c.search present (referencesOf pages) config ((c.update present pages).run.run config) := by
  have hfault := c.faultOf_update present pages config
  constructor
  · constructor
    · rintro ⟨e, he⟩
      rw [faultOf_eq_some.2 he] at hfault
      obtain ⟨r, hr, hre⟩ := List.exists_of_findSome?_eq_some hfault.symm
      exact ⟨r, hr, e, faultOf_eq_some.1 hre⟩
    · rintro ⟨r, hr, e, hre⟩
      cases hres : ((c.update present pages).run.run config).1 with
      | error e' => exact ⟨e', rfl⟩
      | ok _ =>
        rw [hres, faultOf, eq_comm, List.findSome?_eq_none_iff] at hfault
        have hnone := hfault r hr
        rw [hre] at hnone
        cases hnone
  · intro e he
    rw [faultOf_eq_some.2 he] at hfault
    obtain ⟨before, r, after, hsplit, hre, hbefore⟩ := List.findSome?_eq_some_iff.1 hfault.symm
    exact ⟨before, r, after, hsplit, fun q hq => faultOf_eq_none.1 (hbefore q hq), faultOf_eq_some.1 hre⟩
  · intro e he
    rw [update_eq] at he ⊢
    cases hrun : (c.runJobs present (jobsOf pages) .nil).outcome with
    | ok generated =>
      rw [hrun] at he
      cases he
    | error _ => rfl

/-- **A run in place is all or nothing**, over many pages and over one. -/
theorem update_atomic (config : Config) :
    (∀ pages, Atomic c.search present (referencesOf pages) config ((c.update present pages).run.run config)) ∧
    ∀ page, Atomic c.search present (referencesOf [page]) config ((c.updatePage present page).run.run config) :=
  ⟨fun pages => c.atomic_update present pages config, fun page => c.atomic_update present [page] config⟩

end Compiler

end StepChain
