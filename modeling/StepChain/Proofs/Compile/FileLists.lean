import StepChain.Proofs.Compile.Sections
/-!
# File lists of standard flows

In a flow of standard steps with nothing but options after them, the file list of a section is the entries of the
mappings its step got, in the order it got them (`HasFiles`).  Every position of the step keeps this up
(`HasFiles.sectionAfter`), hence so does a block and a whole run (`files_of_update`).
-/
namespace StepChain

open Json (Object Members)

/-- Every step asks for the usual file list, and post-processors only set options. -/
structure Flow.Standard (flow : Flow) : Prop where
  steps : ∀ declared ∈ flow.chains, ∀ step ∈ declared.2, step.isStandard
  posts : ∀ f ∈ flow.followers, ∃ values, f.post.action = .options values

theorem Step.fragment_of_isStandard {step : Step} (h : step.isStandard) (m : Mapping) :
    step.fragment m = m.fileList := by
  cases hbuilder : step.builder with
  | standard => rw [fragment, hbuilder]
  | custom build =>
    rw [isStandard, hbuilder] at h
    cases h

/-- The file list of mappings, with an object of the output and the inputs for each; of none there is none. -/
def fileListOf : List Mapping → Option Json
  | [] => none
  | m :: ms => some (.array ((m :: ms).map fun m =>
      .object (Members.ofList [("dest", .string m.dest), ("src", .array (m.src.map .string))])))

theorem fileListOf_cons (m : Mapping) (ms : List Mapping) :
    fileListOf (m :: ms) = some (.array ((m :: ms).map Mapping.entry)) := rfl

theorem fileListOf_concat (ms : List Mapping) (m : Mapping) :
    fileListOf (ms ++ [m]) = some (.array (ms.map Mapping.entry ++ [m.entry])) := by
  cases ms with
  | nil => rfl
  | cons a as => rw [List.cons_append, fileListOf_cons, ← List.cons_append, List.map_append, List.map_singleton]

/-- A section with the file list of some mappings. -/
def HasFiles (current : Object) (ms : List Mapping) : Prop := current.get? fileListKey = fileListOf ms

/-- The mappings that the positions of a name get, in order. -/
def mappingsFor (name : String) (positions : List Position) : List Mapping :=
  (positionsNamed name positions).flatMap Position.mappings

namespace HasFiles

variable {current : Object} {ms : List Mapping}

theorem nil : HasFiles .nil [] := rfl

theorem addFragment (h : HasFiles current ms) (m : Mapping) :
    HasFiles (addFragment current (Members.ofList [(fileListKey, .array [m.entry])])) (ms ++ [m]) := by
  have hfragment : (Members.ofList [(fileListKey, .array [m.entry])]).get? fileListKey = some (.array [m.entry]) := rfl
  unfold HasFiles at h ⊢
  rw [get?_addFragment, hfragment, h, fileListOf_concat]
  cases ms with
  | nil => rfl
  | cons a as =>
    rw [fileListOf_cons]
    dsimp only [fragmentAt]
    rw [if_pos rfl]

theorem foldl_fragment {step : Step} (hstep : step.isStandard) : ∀ (new : List Mapping) {current : Object}
    {ms : List Mapping}, HasFiles current ms →
    HasFiles (new.foldl (fun current m => ((step.fragment m).object?.map
      (StepChain.addFragment current)).getD current) current) (ms ++ new)
  | [], current, ms, h => by rwa [List.append_nil]
  | m :: new, current, ms, h => by
    have ih := foldl_fragment hstep new (h.addFragment m)
    rw [List.append_assoc] at ih
    rw [List.foldl_cons, Step.fragment_of_isStandard hstep]
    exact ih

theorem collect (h : HasFiles current ms) {p : Position} (hstep : p.step.isStandard) :
    HasFiles (p.collect current) (ms ++ p.mappings) :=
  foldl_fragment hstep p.mappings h

theorem applyOptions (h : HasFiles current ms) (block : Block) {post : Post} {values : Json}
    (hpost : post.action = .options values) : HasFiles (post.apply current block) ms := by
  unfold HasFiles Post.apply at *
  rw [hpost]
  split
  · exact h
  · rename_i heq
    rw [Members.get?_insert, if_neg (by decide)]
    exact h
  · rename_i heq
    cases heq

theorem applyPosts (block : Block) : ∀ (posts : List Post) {current : Object}, HasFiles current ms →
    (∀ post ∈ posts, ∃ values, post.action = .options values) → HasFiles (applyPosts block posts current) ms
  | [], _, h, _ => h
  | post :: posts, _, h, hposts => by
    obtain ⟨values, hpost⟩ := hposts post List.mem_cons_self
    exact applyPosts block posts (h.applyOptions block hpost) fun p hp => hposts p (List.mem_cons_of_mem post hp)

end HasFiles

theorem Flow.Standard.isStandard {flow : Flow} (hflow : flow.Standard) {kind : String} {step : Step}
    (hstep : step ∈ flow.chainOf kind) : step.isStandard := by
  unfold Flow.chainOf at hstep
  cases hfind : flow.chains.find? (·.1 == kind) with
  | none =>
    rw [hfind] at hstep
    cases hstep
  | some declared =>
    rw [hfind] at hstep
    exact hflow.steps declared (List.mem_of_find?_eq_some hfind) step hstep

theorem Flow.Standard.setsOptions {flow : Flow} (hflow : flow.Standard) {kind name : String} {post : Post}
    (hpost : post ∈ flow.postsAfter kind name) : ∃ values, post.action = .options values := by
  obtain ⟨f, hf, rfl⟩ := List.mem_map.1 hpost
  exact hflow.posts f (List.mem_filter.1 hf).1

namespace HasFiles

variable {flow : Flow} {ms : List Mapping}

/-- **One position**: its mappings come after those the step got before. -/
theorem sectionAfter (hflow : flow.Standard) (block : Block) {p : Position} (hstep : p.step.isStandard)
    {current : Object} (h : HasFiles current ms) :
    HasFiles (flow.sectionAfter block p current) (ms ++ p.mappings) :=
  applyPosts block _ (h.collect hstep) fun _ hpost => hflow.setsOptions hpost

/-- **One block**: the positions of the name come one after another. -/
theorem sectionThrough (hflow : flow.Standard) (block : Block) (name : String) : ∀ (positions : List Position)
    {current : Object} {ms : List Mapping}, (∀ p ∈ positions, p.step.isStandard) → HasFiles current ms →
    HasFiles (flow.sectionThrough block name positions current) (ms ++ mappingsFor name positions)
  | [], _, ms, _, h => by
    rw [mappingsFor, positionsNamed, List.filter_nil, List.flatMap_nil, List.append_nil]
    exact h
  | p :: positions, current, ms, hsteps, h => by
    have hrest : ∀ q ∈ positions, q.step.isStandard := fun q hq => hsteps q (List.mem_cons_of_mem p hq)
    by_cases hp : name = p.step.name
    · subst hp
      have hfirst := h.sectionAfter hflow block (hsteps p List.mem_cons_self)
      have ih := sectionThrough hflow block p.step.name positions hrest hfirst
      rw [Flow.sectionThrough_cons_self, mappingsFor, positionsNamed_cons_self, List.flatMap_cons, ← List.append_assoc]
      exact ih
    · rw [Flow.sectionThrough_cons_of_ne flow block hp, mappingsFor, positionsNamed_cons_of_ne hp]
      exact sectionThrough hflow block name positions hrest h

end HasFiles

namespace Compiler

variable (c : Compiler) (resolved : Job → List String)

/-- The mappings that steps of a name get over all pages, blocks and positions, in order. -/
def received (name : String) (pages : List Page) : List Mapping :=
  pages.flatMap fun page => page.blocks.flatMap fun block =>
    mappingsFor name (c.positions block (resolved ⟨page, block⟩))

theorem received_eq (name : String) (pages : List Page) :
    c.received resolved name pages =
      (jobsOf pages).flatMap fun job => mappingsFor name (c.positionsOf resolved job) := by
  rw [received, jobsOf, List.flatMap_assoc]
  simp only [List.flatMap_map]
  rfl

theorem isStandard_positionsOf {c : Compiler} (hflow : c.flow.Standard) (job : Job) :
    ∀ p ∈ c.positionsOf resolved job, p.step.isStandard := by
  intro p hp
  refine hflow.isStandard (?_ : p.step ∈ c.flow.chainOf job.block.kind)
  rw [← c.targets.map_step_wire job.block.dest (c.flow.chainOf job.block.kind) (resolved job)]
  exact List.mem_map_of_mem hp

/-- **All blocks**: the section of a step has the mappings of one block after another. -/
theorem hasFiles_sectionThrough {c : Compiler} (hflow : c.flow.Standard) (name : String) : ∀ (jobs : List Job)
    {current : Object} {ms : List Mapping}, HasFiles current ms →
    HasFiles (c.sectionThrough resolved name jobs current)
      (ms ++ jobs.flatMap fun job => mappingsFor name (c.positionsOf resolved job))
  | [], _, ms, h => by
    rw [List.flatMap_nil, List.append_nil]
    exact h
  | job :: jobs, current, ms, h => by
    have hblock := h.sectionThrough hflow job.block name _ (c.isStandard_positionsOf resolved hflow job)
    have ih := hasFiles_sectionThrough hflow name jobs hblock
    rw [List.flatMap_cons, ← List.append_assoc, sectionThrough, List.foldl_cons]
    exact ih

/-- **The file lists of a run are complete and in order.**  Every step of a chain that a block has ends up with a
generated section, whose file list is the entries of all mappings the step got: by page, block and position. -/
theorem files_of_update (c : Compiler) (hflow : c.flow.Standard) (present : Path → Bool) (pages : List Page)
    {config result : Config} (hrun : (c.update present pages).run.run config = (.ok (), result)) :
    ∃ resolved : Job → List String,
      (∀ page ∈ pages, ∀ block ∈ page.blocks,
        c.search.sources present ⟨page, block⟩ = .ok (resolved ⟨page, block⟩)) ∧
      ∀ page ∈ pages, ∀ block ∈ page.blocks, ∀ step ∈ c.flow.chainOf block.kind, ∃ entry generated,
        result.get? step.name = some (.object entry) ∧ entry.get? sectionKey = some (.object generated) ∧
        generated.get? fileListKey = fileListOf (c.received resolved step.name pages) := by
  obtain ⟨resolved, hresolved, rfl⟩ := c.exists_resolved_of_run present (c.run_of_update present hrun)
  have hjob : ∀ page ∈ pages, ∀ block ∈ page.blocks, Job.mk page block ∈ jobsOf pages := fun page hpage block hblock =>
    List.mem_flatMap.2 ⟨page, hpage, List.mem_map_of_mem hblock⟩
  refine ⟨resolved, fun page hpage block hblock => hresolved _ (hjob page hpage block hblock), ?_⟩
  intro page hpage block hblock step hstep
  have htouched : ∃ job ∈ jobsOf pages, c.Touches step.name job :=
    ⟨_, hjob page hpage block hblock, List.mem_map_of_mem hstep⟩
  have hgenerated := c.get?_generateJobs resolved step.name (jobsOf pages) .nil
  rw [if_pos htouched] at hgenerated
  have hentry := get?_withGenerated config (c.generateJobs resolved (jobsOf pages) .nil) step.name
  rw [hgenerated] at hentry
  refine ⟨_, c.sectionThrough resolved step.name (jobsOf pages) .nil, hentry, ?_, ?_⟩
  · rw [Members.get?_insert, if_pos rfl]
    rfl
  · have hfiles := c.hasFiles_sectionThrough resolved hflow step.name (jobsOf pages) HasFiles.nil
    rw [List.nil_append, ← received_eq] at hfiles
    exact hfiles

/-- Two types whose chains share a step, which stands twice in one of them and sets options there. -/
def sharing : Compiler where
  flow.chains := [("js", [.concat, .uglify, .concat]), ("css", [.concat])]
  flow.followers := [⟨"js", "concat", ⟨"concat", .options (.bool true)⟩⟩]
  targets := ⟨⟨"dist"⟩, ⟨".tmp"⟩⟩
  search := ⟨[⟨"app"⟩], false, none⟩

theorem standard_sharing : sharing.flow.Standard where
  steps := by decide
  posts := by
    intro f hf
    rw [List.mem_singleton.1 hf]
    exact ⟨_, rfl⟩

/-- The shared step gets two mappings from the first block and one from the second. -/
theorem files_sharing : ∃ result entry generated,
    (sharing.update (fun _ => false)
      [⟨⟨"index.html"⟩, ⟨"."⟩, [⟨"js", "site.js", ["a.js", "b.js"]⟩, ⟨"css", "site.css", ["a.css"]⟩]⟩]).run.run .nil =
        (.ok (), result) ∧
    result.get? "concat" = some (.object entry) ∧ entry.get? "generated" = some (.object generated) ∧
    generated.get? "files" = some (.array [
      .object (Members.ofList [("dest", .string ".tmp/concat/site.js"),
        ("src", .array [.string "app/a.js", .string "app/b.js"])]),
      .object (Members.ofList [("dest", .string "dist/site.js"), ("src", .array [.string ".tmp/uglify/site.js"])]),
      .object (Members.ofList [("dest", .string "dist/site.css"), ("src", .array [.string "app/a.css"])])]) := by
  let js : Block := ⟨"js", "site.js", ["a.js", "b.js"]⟩
  let css : Block := ⟨"css", "site.css", ["a.css"]⟩
  let page : Page := ⟨⟨"index.html"⟩, ⟨"."⟩, [js, css]⟩
  obtain ⟨⟨⟩, hok⟩ := faultOf_eq_none.1
    (show faultOf ((sharing.update (fun _ => false) [page]).run.run .nil).1 = none by decide +kernel)
  have hrun : (sharing.update (fun _ => false) [page]).run.run .nil =
      (.ok (), ((sharing.update (fun _ => false) [page]).run.run .nil).2) := Prod.ext hok rfl
  obtain ⟨resolved, hresolved, hsections⟩ := sharing.files_of_update standard_sharing (fun _ => false) [page] hrun
  obtain ⟨entry, generated, hentry, hgenerated, hfiles⟩ := hsections page List.mem_cons_self js List.mem_cons_self
    .concat List.mem_cons_self
  have hjs : resolved ⟨page, js⟩ = ["app/a.js", "app/b.js"] := by
    have hfound : (sharing.search.sources (fun _ => false) ⟨page, js⟩).toOption = some ["app/a.js", "app/b.js"] := by
      decide +kernel
    rw [hresolved page List.mem_cons_self js List.mem_cons_self] at hfound
    exact Option.some.inj hfound
  have hcss : resolved ⟨page, css⟩ = ["app/a.css"] := by
    have hfound : (sharing.search.sources (fun _ => false) ⟨page, css⟩).toOption = some ["app/a.css"] := by
      decide +kernel
    rw [hresolved page List.mem_cons_self css (List.mem_cons_of_mem js List.mem_cons_self)] at hfound
    exact Option.some.inj hfound
  have hreceived : sharing.received resolved "concat" [page] = [⟨["app/a.js", "app/b.js"], ".tmp/concat/site.js"⟩,
      ⟨[".tmp/uglify/site.js"], "dist/site.js"⟩, ⟨["app/a.css"], "dist/site.css"⟩] := by
    simp only [received, List.flatMap_cons, List.flatMap_nil, page, hjs, hcss]
    decide +kernel
  exact ⟨_, entry, generated, hrun, hentry, hgenerated, hfiles.trans (congrArg fileListOf hreceived)⟩

end Compiler

end StepChain
