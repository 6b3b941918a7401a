import StepChain.Proofs.Compile.Record
/-!
# The two output directories

Compilers that differ in one output directory wire every chain from the same parts: what a chain hands on depends on the
staging directory alone, and only the last position writes under the destination (`Targets.given`).  `handouts` lists
what a run gives to steps (`stepCalls_runJobs`).  Another destination changes the last output of each block there and
nothing else, and another staging directory leaves both ends of every chain alone (`directories_independent`).
-/
namespace StepChain

open Json (Object)

/-- What a step is given in a run: a mapping, for a block, at a place of the block's chain counted from zero. -/
structure Handout where
  job : Job
  place : Nat
  step : Step
  mapping : Mapping

namespace Handout

def call (h : Handout) : Step × Mapping := (h.step, h.mapping)

def IsLast (flow : Flow) (h : Handout) : Prop := h.place + 1 = (flow.chainOf h.job.block.kind).length

instance (flow : Flow) (h : Handout) : Decidable (h.IsLast flow) :=
  inferInstanceAs (Decidable (h.place + 1 = (flow.chainOf h.job.block.kind).length))

/-- The same, but with the final output under another destination. -/
def redirected (flow : Flow) (dest : Path) (h : Handout) : Handout :=
  if h.IsLast flow then { h with mapping.dest := Output.final dest h.job.block.dest } else h

theorem redirected_of_last {flow : Flow} {h : Handout} (hlast : h.IsLast flow) (dest : Path) :
    h.redirected flow dest = { h with mapping.dest := Output.final dest h.job.block.dest } := if_pos hlast

theorem redirected_of_not_last {flow : Flow} {h : Handout} (hlast : ¬ h.IsLast flow) (dest : Path) :
    h.redirected flow dest = h := if_neg hlast

/-- Handouts to one step at one place of a chain that read the same at its start and write the same at its end. -/
structure SameEnds (flow : Flow) (h other : Handout) : Prop where
  job_eq : h.job = other.job
  place_eq : h.place = other.place
  step_eq : h.step = other.step
  src_eq : h.place = 0 → h.mapping.src = other.mapping.src
  dest_eq : h.IsLast flow → h.mapping.dest = other.mapping.dest

end Handout

def stepCalls (calls : List Call) : List (Step × Mapping) :=
  calls.filterMap fun
    | .step step m => some (step, m)
    | _ => none

theorem stepCalls_append (first second : List Call) :
    stepCalls (first ++ second) = stepCalls first ++ stepCalls second := List.filterMap_append

namespace Compiler

variable (c : Compiler) (present : Path → Bool)

def stagingIn (staging : Path) : Compiler := { c with targets.staging := staging }

def writingTo (dest : Path) : Compiler := { c with targets.dest := dest }

def blockHandouts (job : Job) (sources : List String) : List Handout :=
  (c.positions job.block sources).zipIdx.flatMap fun e => e.1.mappings.map fun m => ⟨job, e.2, e.1.step, m⟩

/-- What the steps are given, block after block, up to the first block with a reference that leads nowhere. -/
def handouts : List Job → List Handout
  | [] => []
  | job :: rest =>
    match c.search.sources present job with
    | .ok sources => c.blockHandouts job sources ++ handouts rest
    | .error _ => []

end Compiler

/-! ### What a run gives to steps -/

theorem stepCalls_positionRecord (flow : Flow) (block : Block) (p : Position) (current : Object) :
    stepCalls (flow.positionRecord block p current) = p.mappings.map fun m => (p.step, m) := by
  simp [stepCalls, Flow.positionRecord, postRecord]

theorem Flow.stepCalls_generateTraced (flow : Flow) (block : Block) : ∀ (positions : List Position)
    (generated : Object), stepCalls (flow.generateTraced block positions generated).calls =
      positions.flatMap fun p => p.mappings.map fun m => (p.step, m)
  | [], _ => rfl
  | p :: positions, generated => by
    rw [calls_generateTraced_cons, stepCalls_append, calls_sectionAfterTraced, stepCalls_positionRecord,
      stepCalls_generateTraced flow block positions, List.flatMap_cons]

theorem Search.stepCalls_hookCalls (s : Search) (present : Path → Bool) (job : Job) :
    stepCalls (s.hookCalls present job) = [] := by
  obtain ⟨references, hasked⟩ : ∃ references, s.hookCalls present job = s.asks job references := by
    cases hs : s.sources present job with
    | ok sources => exact ⟨_, s.hookCalls_of_found present (s.sources_eq_ok present hs)⟩
    | error e =>
      obtain ⟨asked, reference, unasked, hsrc, hfound, hfails⟩ := s.sources_eq_error present hs
      exact ⟨_, s.hookCalls_of_stop present hsrc hfound hfails⟩
  rw [hasked, asks]
  split <;> simp [stepCalls]

namespace Compiler

variable (c : Compiler) (present : Path → Bool)

theorem map_call_blockHandouts (job : Job) (sources : List String) :
    (c.blockHandouts job sources).map Handout.call =
      (c.positions job.block sources).flatMap fun p => p.mappings.map fun m => (p.step, m) := by
  rw [blockHandouts, List.map_flatMap]
  simp only [List.map_map]
  conv => rhs; rw [← List.zipIdx_map_fst 0 (c.positions job.block sources), List.flatMap_map]
  rfl

/-- **A run gives the steps its handouts**, in order, whether it succeeds or fails. -/
theorem stepCalls_runJobs : ∀ (jobs : List Job) (generated : Object),
    stepCalls (c.runJobs present jobs generated).calls = (c.handouts present jobs).map Handout.call
  | [], _ => rfl
  | job :: jobs, generated => by
    rw [calls_runJobs_cons, handouts, stepCalls_append, Search.stepCalls_hookCalls, List.nil_append]
    cases c.search.sources present job with
    | error e => rfl
    | ok sources =>
      dsimp only
      rw [stepCalls_append, Flow.stepCalls_generateTraced, stepCalls_runJobs jobs, List.map_append,
        map_call_blockHandouts]

end Compiler

/-! ### What a position is given -/

theorem eq_of_forall₂_imp {α : Type} {p : Prop} {xs ys : List α} (h : List.Forall₂ (fun x y => p → x = y) xs ys)
    (hp : p) : xs = ys := by
  have hsame : List.Forall₂ (· = ·) xs ys := h.imp fun _ _ hxy => hxy hp
  rwa [List.forall₂_eq_eq_eq] at hsame

namespace Targets

variable (t : Targets) (blockDest : String)

def given (chain : List Step) (sources : List String) (place : Nat) (step : Step) : List Mapping :=
  if place + 1 = chain.length then [⟨t.thread blockDest (chain.take place) sources, Output.final t.dest blockDest⟩]
  else t.staged step blockDest (t.thread blockDest (chain.take place) sources)

theorem given_of_last {chain : List Step} {place : Nat} (h : place + 1 = chain.length) (sources : List String)
    (step : Step) : t.given blockDest chain sources place step =
      [⟨t.thread blockDest (chain.take place) sources, Output.final t.dest blockDest⟩] := if_pos h

theorem given_of_not_last {chain : List Step} {place : Nat} (h : place + 1 ≠ chain.length) (sources : List String)
    (step : Step) : t.given blockDest chain sources place step =
      t.staged step blockDest (t.thread blockDest (chain.take place) sources) := if_neg h

theorem zipIdx_wire (chain : List Step) (sources : List String) : (t.wire blockDest chain sources).zipIdx =
    chain.zipIdx.map fun e => (⟨e.1, t.given blockDest chain sources e.2 e.1⟩, e.2) := by
  apply List.ext_getElem?
  intro i
  rw [List.getElem?_map, List.getElem?_zipIdx, List.getElem?_zipIdx, getElem?_wire]
  cases chain[i]? with
  | none => rfl
  | some step => simp [given]

theorem wire_stagingIn (staging : Path) {chain : List Step} (h : chain.length ≤ 1) (sources : List String) :
    Targets.wire { t with staging := staging } blockDest chain sources = t.wire blockDest chain sources := by
  match chain, h with
  | [], _ => rfl
  | [_], _ => rfl

theorem thread_nil (inputs : List String) : t.thread blockDest [] inputs = inputs := rfl

theorem thread_cons (step : Step) (steps : List Step) (inputs : List String) :
    t.thread blockDest (step :: steps) inputs = t.thread blockDest steps (t.handOn blockDest inputs step) := rfl

/-- How many texts are handed on does not depend on the directories. -/
theorem length_thread (other : Targets) : ∀ (steps : List Step) {inputs inputs' : List String},
    inputs.length = inputs'.length →
    (t.thread blockDest steps inputs).length = (other.thread blockDest steps inputs').length
  | [], _, _, h => h
  | step :: steps, inputs, inputs', h => by
    rw [thread_cons, thread_cons]
    refine length_thread other steps ?_
    cases hmode : step.mode with
    | merged => simp [handOn_merged _ _ hmode]
    | perSource => simpa [handOn_perSource _ _ hmode] using h

/-- At the first place of a chain stand the sources, and at any other equally many texts. -/
theorem forall₂_thread (other : Targets) (chain : List Step) (sources : List String) (place : Nat) :
    List.Forall₂ (fun x y => place = 0 → x = y) (t.thread blockDest (chain.take place) sources)
      (other.thread blockDest (chain.take place) sources) := by
  cases place with
  | zero =>
    rw [List.take_zero, thread_nil, thread_nil]
    exact List.forall₂_same.2 fun _ _ _ => rfl
  | succ place =>
    have hlength := t.length_thread blockDest other (chain.take (place + 1)) (rfl : sources.length = sources.length)
    exact List.forall₂_iff_get.2 ⟨hlength, fun _ _ _ h => absurd h (Nat.succ_ne_zero place)⟩

/-- Inputs that agree where a chain starts make handouts with the same ends, before the last place. -/
theorem sameEnds_staged (flow : Flow) (other : Targets) {job : Job} {place : Nat}
    (hplace : place + 1 ≠ (flow.chainOf job.block.kind).length) (step : Step) {inputs inputs' : List String}
    (h : List.Forall₂ (fun x y => place = 0 → x = y) inputs inputs') :
    List.Forall₂ (Handout.SameEnds flow) ((t.staged step job.block.dest inputs).map fun m => ⟨job, place, step, m⟩)
      ((other.staged step job.block.dest inputs').map fun m => ⟨job, place, step, m⟩) := by
  unfold staged
  cases step.mode with
  | merged =>
    exact .cons ⟨rfl, rfl, rfl, eq_of_forall₂_imp h, fun hlast => absurd hlast hplace⟩ .nil
  | perSource =>
    simp only [List.map_map, List.forall₂_map_left_iff, List.forall₂_map_right_iff, Function.comp_def]
    exact h.imp fun x y hxy => ⟨rfl, rfl, rfl, fun hzero => by rw [hxy hzero], fun hlast => absurd hlast hplace⟩

end Targets

/-! ### Compilers that differ in one directory -/

namespace Compiler

variable (c : Compiler) (present : Path → Bool)

theorem blockHandouts_eq (job : Job) (sources : List String) :
    c.blockHandouts job sources = (c.flow.chainOf job.block.kind).zipIdx.flatMap fun e =>
      (c.targets.given job.block.dest (c.flow.chainOf job.block.kind) sources e.2 e.1).map fun m =>
        ⟨job, e.2, e.1, m⟩ := by
  rw [blockHandouts, positions, Targets.zipIdx_wire, List.flatMap_map]

/-- **Another destination** redirects the last handout of every block and leaves the others alone. -/
theorem blockHandouts_writingTo (dest : Path) (job : Job) (sources : List String) :
    (c.writingTo dest).blockHandouts job sources =
      (c.blockHandouts job sources).map (Handout.redirected c.flow dest) := by
  rw [blockHandouts_eq, blockHandouts_eq, List.map_flatMap]
  refine List.flatMap_congr fun e _ => ?_
  have hflow : (c.writingTo dest).flow = c.flow := rfl
  rw [hflow]
  by_cases hlast : e.2 + 1 = (c.flow.chainOf job.block.kind).length
  · rw [Targets.given_of_last _ _ hlast, Targets.given_of_last _ _ hlast, List.map_singleton, List.map_singleton,
      List.map_singleton, Handout.redirected_of_last (h := ⟨job, e.2, e.1, _⟩) hlast]
    rfl
  · have hsame : ∀ m, Handout.redirected c.flow dest ⟨job, e.2, e.1, m⟩ = ⟨job, e.2, e.1, m⟩ := fun m =>
      Handout.redirected_of_not_last (h := ⟨job, e.2, e.1, m⟩) hlast dest
    rw [Targets.given_of_not_last _ _ hlast, Targets.given_of_not_last _ _ hlast, List.map_map]
    simp only [Function.comp_def, hsame]
    rfl

theorem dest_of_mem_blockHandouts {job : Job} {sources : List String} {h : Handout}
    (hmem : h ∈ c.blockHandouts job sources) (hlast : h.IsLast c.flow) :
    h.mapping.dest = Output.final c.targets.dest h.job.block.dest := by
  rw [blockHandouts_eq] at hmem
  obtain ⟨e, -, hmem⟩ := List.mem_flatMap.1 hmem
  obtain ⟨m, hm, rfl⟩ := List.mem_map.1 hmem
  rw [Targets.given_of_last _ _ hlast, List.mem_singleton] at hm
  rw [hm]

/-- **Another staging directory** leaves both ends of every chain alone. -/
theorem forall₂_blockHandouts (staging : Path) (job : Job) (sources : List String) :
    List.Forall₂ (Handout.SameEnds c.flow) (c.blockHandouts job sources)
      ((c.stagingIn staging).blockHandouts job sources) := by
  rw [blockHandouts_eq, blockHandouts_eq]
  refine List.rel_flatMap (R := Eq) (List.forall₂_refl _) ?_
  rintro e _ rfl
  dsimp only
  have hflow : (c.stagingIn staging).flow = c.flow := rfl
  have hthread := c.targets.forall₂_thread job.block.dest (c.stagingIn staging).targets
    (c.flow.chainOf job.block.kind) sources e.2
  rw [hflow]
  by_cases hlast : e.2 + 1 = (c.flow.chainOf job.block.kind).length
  · rw [Targets.given_of_last _ _ hlast, Targets.given_of_last _ _ hlast]
    exact .cons ⟨rfl, rfl, rfl, eq_of_forall₂_imp hthread, fun _ => rfl⟩ .nil
  · rw [Targets.given_of_not_last _ _ hlast, Targets.given_of_not_last _ _ hlast]
    exact c.targets.sameEnds_staged c.flow _ hlast e.1 hthread

theorem handouts_writingTo (dest : Path) : ∀ jobs : List Job,
    (c.writingTo dest).handouts present jobs = (c.handouts present jobs).map (Handout.redirected c.flow dest)
  | [] => rfl
  | job :: jobs => by
    have hsearch : (c.writingTo dest).search = c.search := rfl
    rw [handouts, handouts, hsearch]
    cases c.search.sources present job with
    | error e => rfl
    | ok sources =>
      dsimp only
      rw [blockHandouts_writingTo, handouts_writingTo dest jobs, List.map_append]

theorem forall₂_handouts (staging : Path) : ∀ jobs : List Job,
    List.Forall₂ (Handout.SameEnds c.flow) (c.handouts present jobs) ((c.stagingIn staging).handouts present jobs)
  | [] => .nil
  | job :: jobs => by
    have hsearch : (c.stagingIn staging).search = c.search := rfl
    rw [handouts, handouts, hsearch]
    cases c.search.sources present job with
    | error e => exact .nil
    | ok sources => exact List.rel_append (c.forall₂_blockHandouts staging job sources) (forall₂_handouts staging jobs)

theorem dest_of_mem_handouts {h : Handout} (hlast : h.IsLast c.flow) : ∀ {jobs : List Job},
    h ∈ c.handouts present jobs → h.mapping.dest = Output.final c.targets.dest h.job.block.dest
  | job :: jobs, hmem => by
    rw [handouts] at hmem
    cases hs : c.search.sources present job with
    | error e => simp [hs] at hmem
    | ok sources =>
      rw [hs] at hmem
      rcases List.mem_append.1 hmem with hblock | hrest
      · exact c.dest_of_mem_blockHandouts hblock hlast
      · exact dest_of_mem_handouts hlast hrest

/-- **Chains of one step never stage**, so that runs over them do not depend on the staging directory. -/
theorem runJobs_stagingIn (staging : Path) : ∀ {jobs : List Job},
    (∀ job ∈ jobs, (c.flow.chainOf job.block.kind).length ≤ 1) → ∀ generated,
    (c.stagingIn staging).runJobs present jobs generated = c.runJobs present jobs generated
  | [], _, _ => rfl
  | job :: jobs, h, generated => by
    have hpositions : ∀ sources, (c.stagingIn staging).positions job.block sources = c.positions job.block sources :=
      c.targets.wire_stagingIn job.block.dest staging (h job List.mem_cons_self)
    have hjob : (c.stagingIn staging).runJob present generated job = c.runJob present generated job := by
      unfold runJob
      simp only [hpositions]
      rfl
    rw [runJobs_cons, runJobs_cons, hjob]
    congr 1
    funext next
    exact runJobs_stagingIn staging (fun j hj => h j (List.mem_cons_of_mem job hj)) next

theorem run_stagingIn (staging : Path) {pages : List Page}
    (h : ∀ page ∈ pages, ∀ block ∈ page.blocks, (c.flow.chainOf block.kind).length ≤ 1) (config : Config) :
    (c.stagingIn staging).run present pages config = c.run present pages config := by
  have hjobs : ∀ job ∈ jobsOf pages, (c.flow.chainOf job.block.kind).length ≤ 1 := by
    intro job hjob
    obtain ⟨page, hpage, block, hblock, rfl⟩ := mem_jobsOf.1 hjob
    exact h page hpage block hblock
  rw [run, run, c.runJobs_stagingIn present staging hjobs]

/-- **The output directories are independent.**  Over chains of at most one step, a run is the same with any staging
directory.  Over any chains, steps are given the same with another destination, in the same order, but for the
destination of the last mapping of each block, and with another staging directory they read the same sources at the
first places and write the same outputs at the last ones. -/
theorem directories_independent (pages : List Page) :
    (∀ staging, (∀ page ∈ pages, ∀ block ∈ page.blocks, (c.flow.chainOf block.kind).length ≤ 1) → ∀ config,
      (c.stagingIn staging).run present pages config = c.run present pages config ∧
      ((c.stagingIn staging).update present pages).run.run config = (c.update present pages).run.run config) ∧
    (∀ config, stepCalls (c.run present pages config).calls =
      (c.handouts present (jobsOf pages)).map Handout.call) ∧
    (∀ h ∈ c.handouts present (jobsOf pages), h.IsLast c.flow →
      h.mapping.dest = Output.final c.targets.dest h.job.block.dest) ∧
    (∀ dest config, stepCalls ((c.writingTo dest).run present pages config).calls =
      ((c.handouts present (jobsOf pages)).map (Handout.redirected c.flow dest)).map Handout.call) ∧
    ∀ staging config, ∃ handouts,
      stepCalls ((c.stagingIn staging).run present pages config).calls = handouts.map Handout.call ∧
      List.Forall₂ (Handout.SameEnds c.flow) (c.handouts present (jobsOf pages)) handouts := by
  refine ⟨fun staging h config => ⟨c.run_stagingIn present staging h config, ?_⟩, fun config => ?_,
    fun h hmem hlast => c.dest_of_mem_handouts present hlast hmem, fun dest config => ?_, fun staging config => ?_⟩
  · rw [update_eq_run, update_eq_run, c.run_stagingIn present staging h config]
  · rw [calls_run, stepCalls_runJobs]
  · rw [calls_run, stepCalls_runJobs, handouts_writingTo]
  · rw [calls_run, stepCalls_runJobs]
    exact ⟨_, rfl, c.forall₂_handouts present staging (jobsOf pages)⟩

/-- A chain of one step beside a chain of two. -/
def styled : Compiler :=
  ⟨⟨[("css", [.cssmin]), ("js", [.uglify, .concat])], []⟩, ⟨⟨"dist"⟩, ⟨".tmp"⟩⟩, ⟨[⟨"app"⟩], false, none⟩⟩

/-- The chain of one step is compiled alike with all staging directories.  In the chain of two another destination shows
in the last output alone, and another staging directory everywhere but at the ends. -/
theorem directories_independent_styled :
    (∀ block ∈ (Page.ofSources "css" "site.css" ["a.css"]).blocks, (styled.flow.chainOf block.kind).length ≤ 1) ∧
    ((styled.stagingIn ⟨"/cache"⟩).update (fun _ => false) [.ofSources "css" "site.css" ["a.css"]]).run.run .nil =
      (styled.update (fun _ => false) [.ofSources "css" "site.css" ["a.css"]]).run.run .nil ∧
    (stepCalls ((styled.writingTo ⟨"public"⟩).run (fun _ => false)
      [.ofSources "js" "site.js" ["a.js", "b.js"]] .nil).calls).map Prod.snd =
      [⟨["app/a.js"], ".tmp/uglify/a.js"⟩, ⟨["app/b.js"], ".tmp/uglify/b.js"⟩,
        ⟨[".tmp/uglify/a.js", ".tmp/uglify/b.js"], "public/site.js"⟩] ∧
    ∃ handouts, stepCalls ((styled.stagingIn ⟨"/cache"⟩).run (fun _ => false)
      [.ofSources "js" "site.js" ["a.js", "b.js"]] .nil).calls = handouts.map Handout.call ∧
      List.Forall₂ (Handout.SameEnds styled.flow)
        (styled.handouts (fun _ => false) (jobsOf [.ofSources "js" "site.js" ["a.js", "b.js"]])) handouts := by
  have hshort : ∀ page ∈ [Page.ofSources "css" "site.css" ["a.css"]], ∀ block ∈ page.blocks,
      (styled.flow.chainOf block.kind).length ≤ 1 := by decide
  obtain ⟨hstaging, -⟩ := styled.directories_independent (fun _ => false) [.ofSources "css" "site.css" ["a.css"]]
  obtain ⟨-, -, -, hdest, hends⟩ :=
    styled.directories_independent (fun _ => false) [.ofSources "js" "site.js" ["a.js", "b.js"]]
  refine ⟨hshort _ List.mem_cons_self, (hstaging ⟨"/cache"⟩ hshort .nil).2, ?_, hends ⟨"/cache"⟩ .nil⟩
  rw [hdest ⟨"public"⟩ .nil]
  decide +kernel

end Compiler
end StepChain
