import StepChain.Proofs.Compile.Succession
/-!
# The record of a run

`Compiler.record` writes down which calls blocks make, in order, without running them: a block asks for its references,
and then each position of its chain calls its step for every mapping and the post-processors that follow the step.  What
a post-processor is told is put together from the earlier positions of its step alone.  Each traced function leaves its
part of the record in the trace.  So a run that succeeds makes just these calls, and one that fails makes them up to the
question for the reference that leads nowhere (`calls_of_run`).
-/
namespace StepChain

open Json (Object Members)

/-- The items of a list, each with the list of those before it. -/
def withEarlier {α : Type} (xs : List α) : List (List α × α) := xs.mapIdx fun i x => (xs.take i, x)

section

variable {α : Type}

theorem getElem?_withEarlier (xs : List α) (i : Nat) : (withEarlier xs)[i]? = xs[i]?.map fun x => (xs.take i, x) :=
  List.getElem?_mapIdx

theorem withEarlier_cons (x : α) (xs : List α) :
    withEarlier (x :: xs) = ([], x) :: (withEarlier xs).map fun e => (x :: e.1, e.2) := by
  apply List.ext_getElem?
  intro i
  cases i with
  | zero => simp [getElem?_withEarlier]
  | succ i => simp [getElem?_withEarlier, Function.comp_def]

theorem withEarlier_append (xs ys : List α) :
    withEarlier (xs ++ ys) = withEarlier xs ++ (withEarlier ys).map fun e => (xs ++ e.1, e.2) := by
  induction xs with
  | nil => simp [withEarlier]
  | cons x xs ih => simp [withEarlier_cons, ih, Function.comp_def]

theorem map_snd_withEarlier (xs : List α) : (withEarlier xs).map Prod.snd = xs := by
  induction xs with
  | nil => rfl
  | cons x xs ih => simpa [withEarlier_cons, Function.comp_def] using ih

theorem mem_of_mem_withEarlier {xs : List α} {e : List α × α} (h : e ∈ withEarlier xs) : e.2 ∈ xs := by
  have hmem := List.mem_map_of_mem (f := Prod.snd) h
  rwa [map_snd_withEarlier] at hmem

theorem exists_mem_withEarlier {xs : List α} {x : α} (h : x ∈ xs) : ∃ earlier, (earlier, x) ∈ withEarlier xs := by
  rw [← map_snd_withEarlier xs] at h
  obtain ⟨⟨earlier, _⟩, hmem, rfl⟩ := List.mem_map.1 h
  exact ⟨earlier, hmem⟩

end

/-! ### What is written down -/

namespace Search

/-- One question to the hook for each reference; none if there is no hook. -/
def asks (s : Search) (job : Job) (references : List String) : List Call :=
  if s.hook.isSome then references.map fun reference => .hook (s.query job.page job.block reference) else []

theorem asks_append (s : Search) (job : Job) (first second : List String) :
    s.asks job (first ++ second) = s.asks job first ++ s.asks job second := by
  unfold asks
  split
  · exact List.map_append
  · rfl

end Search

/-- The fragments of a position, in the order of its mappings; what is no object is none. -/
def Position.fragments (p : Position) : List Object := p.mappings.filterMap fun m => (p.step.fragment m).object?

/-- The post-processors of a position, each told what those before it left. -/
def postRecord (block : Block) (posts : List Post) (merged : Object) : List Call :=
  (withEarlier posts).map fun e => .post e.2 block (e.1.foldl (fun current post => post.apply current block) merged)

/-- The step for every mapping, and then what follows it, once the fragments of all mappings are merged. -/
def Flow.positionRecord (flow : Flow) (block : Block) (p : Position) (current : Object) : List Call :=
  p.mappings.map (.step p.step) ++
    postRecord block (flow.postsAfter block.kind p.step.name) (p.fragments.foldl addFragment current)

namespace Compiler

variable (c : Compiler) (resolved : Job → List String)

/-- The section of a step by the time that `positions` of a block are done, after earlier blocks. -/
def sectionBy (earlier : List Job) (block : Block) (positions : List Position) (name : String) : Object :=
  c.flow.sectionThrough block name positions (c.sectionThrough resolved name earlier .nil)

def blockRecord (earlier : List Job) (job : Job) : List Call :=
  (withEarlier (c.positionsOf resolved job)).flatMap fun e =>
    c.flow.positionRecord job.block e.2 (c.sectionBy resolved earlier job.block e.1 e.2.step.name)

/-- The calls of blocks whose references lead to `resolved`. -/
def record (jobs : List Job) : List Call :=
  (withEarlier jobs).flatMap fun e => c.search.asks e.2 e.2.block.src ++ c.blockRecord resolved e.1 e.2

end Compiler

theorem step_mem_positionRecord {flow : Flow} {block : Block} {p : Position} {current : Object} {step : Step}
    {m : Mapping} : .step step m ∈ flow.positionRecord block p current ↔ p.step = step ∧ m ∈ p.mappings := by
  simp only [Flow.positionRecord, postRecord, List.mem_append, List.mem_map, Call.step.injEq, reduceCtorEq, and_false,
    exists_false, or_false]
  constructor
  · rintro ⟨m, hm, rfl, rfl⟩
    exact ⟨rfl, hm⟩
  · rintro ⟨rfl, hm⟩
    exact ⟨m, hm, rfl, rfl⟩

theorem step_not_mem_asks {s : Search} {job : Job} {references : List String} {step : Step} {m : Mapping} :
    .step step m ∉ s.asks job references := by
  unfold Search.asks
  split <;> simp

/-- **The steps that are called are those of the positions**, for their mappings. -/
theorem Compiler.step_mem_record {c : Compiler} {resolved : Job → List String} {jobs : List Job} {step : Step}
    {m : Mapping} : .step step m ∈ c.record resolved jobs ↔
      ∃ job ∈ jobs, ∃ p ∈ c.positionsOf resolved job, p.step = step ∧ m ∈ p.mappings := by
  simp only [record, blockRecord, List.mem_flatMap, List.mem_append, step_not_mem_asks, step_mem_positionRecord,
    false_or]
  constructor
  · rintro ⟨e, he, e', he', hstep⟩
    exact ⟨e.2, mem_of_mem_withEarlier he, e'.2, mem_of_mem_withEarlier he', hstep⟩
  · rintro ⟨job, hjob, p, hp, hstep⟩
    obtain ⟨earlier, he⟩ := exists_mem_withEarlier hjob
    obtain ⟨before, he'⟩ := exists_mem_withEarlier hp
    exact ⟨(earlier, job), he, (before, p), he', hstep⟩

theorem exists_post_mem_positionRecord {flow : Flow} {block : Block} {p : Position} {post : Post}
    (h : post ∈ flow.postsAfter block.kind p.step.name) (current : Object) :
    ∃ found, .post post block found ∈ flow.positionRecord block p current := by
  obtain ⟨earlier, he⟩ := exists_mem_withEarlier h
  exact ⟨_, List.mem_append_right _ (List.mem_map_of_mem he)⟩

/-- **The post-processors of every position of every block are called.** -/
theorem Compiler.exists_post_mem_record {c : Compiler} {resolved : Job → List String} {jobs : List Job} {job : Job}
    (hjob : job ∈ jobs) {p : Position} (hp : p ∈ c.positionsOf resolved job) {post : Post}
    (hpost : post ∈ c.flow.postsAfter job.block.kind p.step.name) :
    ∃ found, .post post job.block found ∈ c.record resolved jobs := by
  obtain ⟨earlier, he⟩ := exists_mem_withEarlier hjob
  obtain ⟨before, he'⟩ := exists_mem_withEarlier hp
  obtain ⟨found, hfound⟩ := exists_post_mem_positionRecord hpost
    (c.sectionBy resolved earlier job.block before p.step.name)
  have hblock : .post post job.block found ∈ c.blockRecord resolved earlier job := List.mem_flatMap.2 ⟨_, he', hfound⟩
  exact ⟨found, List.mem_flatMap.2 ⟨_, he, List.mem_append_right _ hblock⟩⟩

/-! ### The calls of one block -/

theorem Position.collect_eq (p : Position) (current : Object) :
    p.collect current = p.fragments.foldl addFragment current := by
  rw [collect, fragments, List.foldl_filterMap]
  congr 1
  funext current m
  cases (p.step.fragment m).object? <;> rfl

theorem Position.calls_collectTraced (p : Position) (current : Object) :
    (p.collectTraced current).calls = p.mappings.map (.step p.step) := by
  rw [collectTraced, Traced.calls_foldlM (g := fun m => [.step p.step m]) fun _ _ => rfl, ← List.map_eq_flatMap]

theorem calls_applyPostsTraced (block : Block) : ∀ (posts : List Post) (merged : Object),
    (applyPostsTraced block posts merged).calls = postRecord block posts merged
  | [], _ => rfl
  | post :: posts, merged => by
    have ih := calls_applyPostsTraced block posts (post.apply merged block)
    rw [applyPostsTraced, postRecord] at ih
    rw [applyPostsTraced, Traced.calls_foldlM_cons, postRecord, withEarlier_cons, List.map_cons, List.map_map]
    exact congrArg (Call.post post block merged :: ·) ih

namespace Flow

variable (flow : Flow) (block : Block)

theorem calls_sectionAfterTraced (p : Position) (current : Object) :
    (flow.sectionAfterTraced block p current).calls = flow.positionRecord block p current := by
  rw [sectionAfterTraced, Traced.calls_bind, Position.calls_collectTraced, Position.value_collectTraced,
    calls_applyPostsTraced, Position.collect_eq, positionRecord]

/-- **A block makes the calls of its positions**, each from the section that its step has by then. -/
theorem calls_generateTraced : ∀ (positions : List Position) (generated : Object),
    (flow.generateTraced block positions generated).calls = (withEarlier positions).flatMap fun e =>
      flow.positionRecord block e.2 (flow.sectionThrough block e.2.step.name e.1 (sectionOf generated e.2.step.name))
  | [], _ => rfl
  | p :: positions, generated => by
    have ih := calls_generateTraced positions (flow.generatePosition block generated p)
    have hsection : ∀ name earlier, flow.sectionThrough block name (p :: earlier) (sectionOf generated name) =
        flow.sectionThrough block name earlier (sectionOf (flow.generatePosition block generated p) name) := by
      intro name earlier
      rw [← sectionOf_generate, ← sectionOf_generate]
      rfl
    rw [calls_generateTraced_cons, withEarlier_cons, List.flatMap_cons, List.flatMap_map, calls_sectionAfterTraced, ih]
    simp only [hsection]
    rfl

end Flow

namespace Search

variable (s : Search) (present : Path → Bool) {job : Job}

theorem asks_eq_flatMap (job : Job) (references : List String) :
    s.asks job references = references.flatMap fun reference => s.asks job [reference] := by
  unfold asks
  cases s.hook with
  | none => simp
  | some hook => exact List.map_eq_flatMap

/-- **The hook is asked once for a reference**, if there is one. -/
theorem calls_sourceTraced (job : Job) (reference : String) :
    (s.sourceTraced present job reference).calls = s.asks job [reference] := by
  rw [sourceTraced, Run.calls_bind_pure, findTraced, Run.calls_bind, Run.outcome_lift, Run.calls_lift]
  dsimp only
  rw [Run.calls_ofExcept, List.append_nil, verdictTraced, asks]
  cases s.hook <;> rfl

theorem exists_outcome_sourceTraced {reference : String}
    (h : ∃ p, s.find present job.page job.block reference = .ok p) :
    ∃ source, (s.sourceTraced present job reference).outcome = .ok source := by
  obtain ⟨p, hp⟩ := h
  exact ⟨p.text, by rw [outcome_sourceTraced, hp, Except.map]⟩

theorem hookCalls_of_found (h : ∀ reference ∈ job.block.src, ∃ p, s.find present job.page job.block reference = .ok p) :
    s.hookCalls present job = s.asks job job.block.src := by
  have hfound : ∀ reference ∈ job.block.src, ∃ source, (s.sourceTraced present job reference).outcome = .ok source :=
    fun reference hmem => s.exists_outcome_sourceTraced present (h reference hmem)
  rw [hookCalls, sourcesTraced, Run.calls_mapM_of_ok hfound, asks_eq_flatMap]
  simp only [calls_sourceTraced]

/-- **The hook is asked up to the first reference that leads nowhere.** -/
theorem hookCalls_of_stop {asked unasked : List String} {reference : String} {e : SourceFault}
    (hsrc : job.block.src = asked ++ reference :: unasked)
    (hasked : ∀ a ∈ asked, ∃ p, s.find present job.page job.block a = .ok p)
    (hfails : s.find present job.page job.block reference = .error e) :
    s.hookCalls present job = s.asks job (asked ++ [reference]) := by
  have hfound : ∀ a ∈ asked, ∃ source, (s.sourceTraced present job a).outcome = .ok source :=
    fun a ha => s.exists_outcome_sourceTraced present (hasked a ha)
  have hstops : (s.sourceTraced present job reference).outcome = .error e := by
    rw [outcome_sourceTraced, hfails, Except.map]
  rw [hookCalls, sourcesTraced, hsrc, Run.calls_mapM_of_error hstops unasked hfound, asks_eq_flatMap]
  simp only [calls_sourceTraced]

theorem sources_eq_ok {sources : List String} (h : s.sources present job = .ok sources) :
    ∀ reference ∈ job.block.src, ∃ p, s.find present job.page job.block reference = .ok p := by
  intro reference hmem
  have hnone := s.faultOf_sources present job
  rw [faultOf_eq_none.2 ⟨sources, h⟩, eq_comm, List.findSome?_eq_none_iff] at hnone
  exact faultOf_eq_none.1 (hnone ⟨job.page, job.block, reference⟩ (List.mem_map_of_mem hmem))

theorem sources_eq_error {e : SourceFault} (h : s.sources present job = .error e) : ∃ asked reference unasked,
    job.block.src = asked ++ reference :: unasked ∧
    (∀ a ∈ asked, ∃ p, s.find present job.page job.block a = .ok p) ∧
    s.find present job.page job.block reference = .error e := by
  have hfault := s.faultOf_sources present job
  rw [faultOf_eq_some.2 h, Job.references, List.findSome?_map] at hfault
  obtain ⟨asked, reference, unasked, hsrc, hfails, hasked⟩ := List.findSome?_eq_some_iff.1 hfault.symm
  exact ⟨asked, reference, unasked, hsrc, fun a ha => faultOf_eq_none.1 (hasked a ha), faultOf_eq_some.1 hfails⟩

end Search

/-! ### The calls of a run -/

/-- Where a run stops: a reference that leads nowhere, when all blocks before its block and all references before it in
the block lead somewhere. -/
structure Stop (s : Search) (present : Path → Bool) (jobs : List Job) where
  earlier : List Job
  job : Job
  later : List Job
  asked : List String
  reference : String
  unasked : List String
  fault : SourceFault
  jobs_eq : jobs = earlier ++ job :: later
  src_eq : job.block.src = asked ++ reference :: unasked
  earlier_found : ∀ j ∈ earlier, ∃ sources, s.sources present j = .ok sources
  asked_found : ∀ a ∈ asked, ∃ p, s.find present job.page job.block a = .ok p
  reference_fails : s.find present job.page job.block reference = .error fault

namespace Compiler

variable (c : Compiler) (present : Path → Bool)

theorem sectionOf_generateJobs (resolved : Job → List String) (name : String) (jobs : List Job) (generated : Object) :
    sectionOf (c.generateJobs resolved jobs generated) name =
      c.sectionThrough resolved name jobs (sectionOf generated name) := by
  rw [sectionOf, get?_generateJobs]
  by_cases h : ∃ job ∈ jobs, c.Touches name job
  · rw [if_pos h]
    rfl
  · have huntouched : ∀ job ∈ jobs, ¬ c.Touches name job := fun job hjob htouch => h ⟨job, hjob, htouch⟩
    rw [if_neg h, c.sectionThrough_of_untouched resolved huntouched, sectionOf]

/-- Blocks whose references all lead somewhere make the calls they are written down with. -/
theorem calls_runJobs_of_resolved {resolved : Job → List String} : ∀ {jobs : List Job} (generated : Object),
    (∀ job ∈ jobs, c.search.sources present job = .ok (resolved job)) →
    (c.runJobs present jobs generated).calls = (withEarlier jobs).flatMap fun e =>
      c.search.asks e.2 e.2.block.src ++ (c.flow.generateTraced e.2.block (c.positionsOf resolved e.2)
        (c.generateJobs resolved e.1 generated)).calls
  | [], _, _ => rfl
  | job :: jobs, generated, h => by
    have hjob := h job List.mem_cons_self
    have hasked := c.search.hookCalls_of_found present (c.search.sources_eq_ok present hjob)
    have ih := calls_runJobs_of_resolved (c.flow.generate job.block (c.positionsOf resolved job) generated)
      fun j hj => h j (List.mem_cons_of_mem job hj)
    rw [calls_runJobs_cons, hjob, withEarlier_cons, List.flatMap_cons, List.flatMap_map, hasked, List.append_assoc]
    exact congrArg _ (congrArg _ ih)

theorem calls_runJobs_eq_record {resolved : Job → List String} {jobs : List Job}
    (h : ∀ job ∈ jobs, c.search.sources present job = .ok (resolved job)) :
    (c.runJobs present jobs .nil).calls = c.record resolved jobs := by
  rw [c.calls_runJobs_of_resolved present .nil h, record]
  simp only [Flow.calls_generateTraced, sectionOf_generateJobs, blockRecord]
  rfl

theorem exists_position_of_mem_chainOf (resolved : Job → List String) {job : Job} {step : Step}
    (h : step ∈ c.flow.chainOf job.block.kind) : ∃ p ∈ c.positionsOf resolved job, p.step = step := by
  rw [← c.targets.map_step_wire job.block.dest (c.flow.chainOf job.block.kind) (resolved job)] at h
  exact List.mem_map.1 h

/-- **A post-processor that follows a step of a type's chain is called for every block of the type.** -/
theorem exists_post_mem_calls {pages : List Page} {config result : Config}
    (hrun : (c.run present pages config).outcome = .ok result) {page : Page} (hpage : page ∈ pages) {block : Block}
    (hblock : block ∈ page.blocks) {step : Step} (hstep : step ∈ c.flow.chainOf block.kind) {post : Post}
    (hpost : post ∈ c.flow.postsAfter block.kind step.name) :
    ∃ found, Call.post post block found ∈ (c.run present pages config).calls := by
  have hjob : Job.mk page block ∈ jobsOf pages := mem_jobsOf.2 ⟨page, hpage, block, hblock, rfl⟩
  obtain ⟨resolved, hresolved, -⟩ := c.exists_resolved_of_run present hrun
  obtain ⟨p, hp, rfl⟩ : ∃ p ∈ c.positionsOf resolved ⟨page, block⟩, p.step = step :=
    c.exists_position_of_mem_chainOf resolved hstep
  rw [calls_run, c.calls_runJobs_eq_record present hresolved]
  exact exists_post_mem_record hjob hp hpost

theorem calls_runJobs_append {resolved : Job → List String} {earlier : List Job} (later : List Job)
    (generated : Object) (h : ∀ job ∈ earlier, c.search.sources present job = .ok (resolved job)) :
    (c.runJobs present (earlier ++ later) generated).calls = (c.runJobs present earlier generated).calls ++
      (c.runJobs present later (c.generateJobs resolved earlier generated)).calls := by
  have hearlier := c.runJobs_of_resolved present resolved earlier generated h
  rw [runJobs, List.foldlM_append]
  exact Run.calls_bind_of_ok hearlier (c.runJobs present later)

/-- A run that fails stops at a reference, with the fault of that reference. -/
theorem exists_stop : ∀ {jobs : List Job} {generated : Object} {e : SourceFault},
    (c.runJobs present jobs generated).outcome = .error e → ∃ stop : Stop c.search present jobs, stop.fault = e
  | job :: jobs, generated, e, h => by
    rw [outcome_runJobs_cons] at h
    cases hs : c.search.sources present job with
    | error fault =>
      rw [hs] at h
      cases h
      obtain ⟨asked, reference, unasked, hsrc, hasked, hfails⟩ := c.search.sources_eq_error present hs
      exact ⟨⟨[], job, jobs, asked, reference, unasked, e, rfl, hsrc, List.forall_mem_nil _, hasked, hfails⟩, rfl⟩
    | ok sources =>
      rw [hs] at h
      obtain ⟨stop, rfl⟩ := exists_stop h
      have hearlier : ∀ j ∈ job :: stop.earlier, ∃ sources, c.search.sources present j = .ok sources :=
        List.forall_mem_cons.2 ⟨⟨sources, hs⟩, stop.earlier_found⟩
      exact ⟨{ stop with
        earlier := job :: stop.earlier
        jobs_eq := congrArg (job :: ·) stop.jobs_eq
        earlier_found := hearlier }, rfl⟩

/-- **A run that stops has made the calls of the blocks before**, and has asked for the references up to the one it
stops at. -/
theorem calls_of_stop {jobs : List Job} (stop : Stop c.search present jobs) :
    (c.runJobs present jobs .nil).calls = c.record (c.found present) stop.earlier ++
      c.search.asks stop.job (stop.asked ++ [stop.reference]) := by
  have hearlier : ∀ job ∈ stop.earlier, c.search.sources present job = .ok (c.found present job) := fun job hjob => by
    obtain ⟨sources, hsources⟩ := stop.earlier_found job hjob
    exact c.sources_eq_found present hsources
  have hstopped : ∃ e, c.search.sources present stop.job = .error e := by
    cases hs : c.search.sources present stop.job with
    | error e => exact ⟨e, rfl⟩
    | ok sources =>
      have hmem : stop.reference ∈ stop.job.block.src := by
        rw [stop.src_eq]
        exact List.mem_append_right _ List.mem_cons_self
      obtain ⟨p, hp⟩ := c.search.sources_eq_ok present hs stop.reference hmem
      rw [stop.reference_fails] at hp
      cases hp
  obtain ⟨e, hs⟩ := hstopped
  have hasked := c.search.hookCalls_of_stop present stop.src_eq stop.asked_found stop.reference_fails
  have hcalls := c.calls_runJobs_append present (stop.job :: stop.later) .nil hearlier
  rw [← stop.jobs_eq, c.calls_runJobs_eq_record present hearlier, calls_runJobs_cons, hs, hasked,
    List.append_nil] at hcalls
  exact hcalls

theorem record_append_cons (resolved : Job → List String) (earlier later : List Job) (job : Job) :
    ∃ rest, c.record resolved (earlier ++ job :: later) =
      c.record resolved earlier ++ (c.search.asks job job.block.src ++ rest) := by
  rw [record, withEarlier_append, withEarlier_cons, List.map_cons, List.flatMap_append, List.flatMap_cons,
    List.append_assoc]
  exact ⟨_, rfl⟩

/-- What is called before a run stops is the beginning of what is written down, wherever the references that are left
would lead. -/
theorem prefix_record_of_stop {jobs : List Job} (stop : Stop c.search present jobs) {resolved : Job → List String}
    (h : ∀ job ∈ stop.earlier, c.search.sources present job = .ok (resolved job)) :
    (c.runJobs present jobs .nil).calls <+: c.record resolved jobs := by
  have hfound : ∀ job ∈ stop.earlier, c.search.sources present job = .ok (c.found present job) := fun job hjob =>
    c.sources_eq_found present (h job hjob)
  have hsame : c.record (c.found present) stop.earlier = c.record resolved stop.earlier := by
    rw [← c.calls_runJobs_eq_record present hfound, ← c.calls_runJobs_eq_record present h]
  have hsrc : stop.job.block.src = (stop.asked ++ [stop.reference]) ++ stop.unasked := by
    rw [stop.src_eq, List.append_assoc]
    rfl
  obtain ⟨rest, hrecord⟩ := c.record_append_cons resolved stop.earlier stop.later stop.job
  rw [← stop.jobs_eq, hsrc, Search.asks_append] at hrecord
  rw [c.calls_of_stop present stop, hsame, hrecord, ← List.append_assoc, ← List.append_assoc, List.append_assoc]
  exact List.prefix_append _ _

/-- **A run makes its calls in order.**  If it succeeds, every reference leads somewhere and the calls are the record of
all blocks.  If it fails, it stops at the first reference that leads nowhere: the calls are the record of the blocks
before and the questions of its block up to that reference, which is how the record of all blocks begins. -/
theorem calls_of_run (pages : List Page) (config : Config) :
    (∀ result, (c.run present pages config).outcome = .ok result → c.Resolves present pages ∧
      (c.run present pages config).calls = c.record (c.found present) (jobsOf pages)) ∧
    ∀ e, (c.run present pages config).outcome = .error e → ∃ stop : Stop c.search present (jobsOf pages),
      stop.fault = e ∧
      (c.run present pages config).calls = c.record (c.found present) stop.earlier ++
        c.search.asks stop.job (stop.asked ++ [stop.reference]) ∧
      ∀ resolved : Job → List String, (∀ job ∈ stop.earlier, c.search.sources present job = .ok (resolved job)) →
        (c.run present pages config).calls <+: c.record resolved (jobsOf pages) := by
  rw [calls_run]
  constructor
  · intro result hrun
    have hupdate := c.update_eq_run present pages config
    rw [hrun] at hupdate
    have hresolves := c.resolves_of_update present hupdate
    exact ⟨hresolves, c.calls_runJobs_eq_record present hresolves⟩
  · intro e hrun
    have hjobs : (c.runJobs present (jobsOf pages) .nil).outcome = .error e := by
      rw [outcome_run] at hrun
      cases hres : (c.runJobs present (jobsOf pages) .nil).outcome with
      | ok generated =>
        rw [hres] at hrun
        cases hrun
      | error fault =>
        rw [hres] at hrun
        cases hrun
        rfl
    obtain ⟨stop, hfault⟩ := c.exists_stop present hjobs
    exact ⟨stop, hfault, c.calls_of_stop present stop, fun resolved h => c.prefix_record_of_stop present stop h⟩

/-- A chain with two post-processors after its first step, and a hook that leaves `c.css` out. -/
def watched : Compiler where
  flow.chains := [("js", [.uglify, .concat])]
  flow.followers := [⟨"js", "uglify", ⟨"uglify", .options (.bool true)⟩⟩,
    ⟨"js", "uglify", ⟨"uglify", .custom fun current _ => current⟩⟩]
  targets := ⟨⟨"dist"⟩, ⟨".tmp"⟩⟩
  search := ⟨[⟨"app"⟩], false, some fun q => if q.reference = "c.css" then .cancel else .defer⟩

/-- A block with a chain between two without one. -/
def watchedPage (last : String) : Page :=
  ⟨⟨"index.html"⟩, ⟨"."⟩, [⟨"css", "site.css", ["a.css"]⟩, ⟨"js", "site.js", ["a.js", "b.js"]⟩,
    ⟨"css", "print.css", [last, "b.css", "d.css"]⟩]⟩

def watchedAsk (reference blockDest : String) : Call :=
  .hook ⟨reference, ⟨"."⟩, "index.html", blockDest, [⟨"app"⟩, ⟨"."⟩]⟩

/-- What the two fragments of the first step leave. -/
def watchedSection : Object := Members.ofList [("files", .array [
  .object (Members.ofList [("dest", .string ".tmp/uglify/a.js"), ("src", .array [.string "app/a.js"])]),
  .object (Members.ofList [("dest", .string ".tmp/uglify/b.js"), ("src", .array [.string "app/b.js"])])])]

/-- The calls of the first two blocks. -/
def watchedCalls : List Call :=
  [watchedAsk "a.css" "site.css", watchedAsk "a.js" "site.js", watchedAsk "b.js" "site.js",
    .step .uglify ⟨["app/a.js"], ".tmp/uglify/a.js"⟩, .step .uglify ⟨["app/b.js"], ".tmp/uglify/b.js"⟩,
    .post ⟨"uglify", .options (.bool true)⟩ ⟨"js", "site.js", ["a.js", "b.js"]⟩ watchedSection,
    .post ⟨"uglify", .custom fun current _ => current⟩ ⟨"js", "site.js", ["a.js", "b.js"]⟩
      (watchedSection.insert "options" (.bool true)),
    .step .concat ⟨[".tmp/uglify/a.js", ".tmp/uglify/b.js"], "dist/site.js"⟩]

/-- With `p.css` the run goes through.  With `c.css` it stops there, and asks for neither `b.css` nor `d.css`. -/
theorem calls_of_run_watched :
    (∃ result, (watched.run (fun _ => false) [watchedPage "p.css"] .nil).outcome = .ok result) ∧
    watched.record (watched.found fun _ => false) (jobsOf [watchedPage "p.css"]) = watchedCalls ++
      [watchedAsk "p.css" "print.css", watchedAsk "b.css" "print.css", watchedAsk "d.css" "print.css"] ∧
    (watched.run (fun _ => false) [watchedPage "p.css"] .nil).calls = watchedCalls ++
      [watchedAsk "p.css" "print.css", watchedAsk "b.css" "print.css", watchedAsk "d.css" "print.css"] ∧
    (watched.run (fun _ => false) [watchedPage "c.css"] .nil).outcome = .error (.notFound "c.css" ⟨"index.html"⟩) ∧
    (∃ stop : Stop watched.search (fun _ => false) (jobsOf [watchedPage "c.css"]),
      stop.fault = .notFound "c.css" ⟨"index.html"⟩ ∧
      watched.record (watched.found fun _ => false) stop.earlier ++
        watched.search.asks stop.job (stop.asked ++ [stop.reference]) =
          watchedCalls ++ [watchedAsk "c.css" "print.css"]) ∧
    (watched.run (fun _ => false) [watchedPage "c.css"] .nil).calls =
      watchedCalls ++ [watchedAsk "c.css" "print.css"] := by
  obtain ⟨hsuccess, -⟩ := watched.calls_of_run (fun _ => false) [watchedPage "p.css"] .nil
  obtain ⟨-, hfailure⟩ := watched.calls_of_run (fun _ => false) [watchedPage "c.css"] .nil
  have hok : (watched.run (fun _ => false) [watchedPage "p.css"] .nil).outcome = .ok _ := rfl
  have hfaults : (watched.run (fun _ => false) [watchedPage "c.css"] .nil).outcome =
      .error (.notFound "c.css" ⟨"index.html"⟩) := rfl
  have hthrough : (watched.run (fun _ => false) [watchedPage "p.css"] .nil).calls = watchedCalls ++
      [watchedAsk "p.css" "print.css", watchedAsk "b.css" "print.css", watchedAsk "d.css" "print.css"] := rfl
  have hstopped : (watched.run (fun _ => false) [watchedPage "c.css"] .nil).calls =
      watchedCalls ++ [watchedAsk "c.css" "print.css"] := rfl
  obtain ⟨stop, hfault, hcalls, -⟩ := hfailure _ hfaults
  exact ⟨⟨_, hok⟩, (hsuccess _ hok).2 ▸ hthrough, hthrough, hfaults, ⟨stop, hfault, hcalls ▸ hstopped⟩, hstopped⟩

end Compiler
end StepChain
