import Mathlib.Data.List.Forall2
import StepChain.Proofs.Compile.Sections
/-!
# Steps do not interfere

Compilers agree off a name if they differ in nothing but what the steps of that name build and which post-processors
follow these.  Their blocks are wired alike (`forall₂_wire`), and positions of any other name collect the same
(`sectionThrough_eq`).  So no step, and nothing that follows it, has a say in the section of another
(`update_agreeOff`).
-/
namespace StepChain

open Json (Object Members)

/-- Steps of one name and mode; only those of `name` may build different fragments. -/
structure Step.AgreeOff (name : String) (a b : Step) : Prop where
  name_eq : a.name = b.name
  mode_eq : a.mode = b.mode
  fragment_eq : a.name ≠ name → a.fragment = b.fragment

structure Flow.AgreeOff (name : String) (f g : Flow) : Prop where
  chains : ∀ kind, List.Forall₂ (Step.AgreeOff name) (f.chainOf kind) (g.chainOf kind)
  posts : ∀ kind step, step ≠ name → f.postsAfter kind step = g.postsAfter kind step

/-- Compilers with the same directories and search that treat every step but those of `name` alike. -/
structure Compiler.AgreeOff (name : String) (c d : Compiler) : Prop where
  targets_eq : c.targets = d.targets
  search_eq : c.search = d.search
  flow : c.flow.AgreeOff name d.flow

structure Position.AgreeOff (name : String) (p q : Position) : Prop where
  step : p.step.AgreeOff name q.step
  mappings_eq : p.mappings = q.mappings

/-- Configurations with the same keys that hold the same at every key but `name`. -/
structure Config.AgreeOff (name : String) (config other : Config) : Prop where
  keys : ∀ key, (config.get? key).isSome = (other.get? key).isSome
  entries : ∀ key, key ≠ name → config.get? key = other.get? key

theorem Config.AgreeOff.refl (name : String) (config : Config) : config.AgreeOff name config :=
  ⟨fun _ => rfl, fun _ _ => rfl⟩

theorem Config.AgreeOff.withGenerated {name : String} {generated other : Object}
    (h : Config.AgreeOff name generated other) (config : Config) :
    Config.AgreeOff name (config.withGenerated generated) (config.withGenerated other) := by
  constructor
  · intro key
    have hkey := h.keys key
    rw [get?_withGenerated, get?_withGenerated]
    cases hg : generated.get? key with
    | none => cases ho : other.get? key with
      | none => rfl
      | some v => rw [hg, ho] at hkey; cases hkey
    | some v => cases ho : other.get? key with
      | none => rw [hg, ho] at hkey; cases hkey
      | some w => rfl
  · intro key hne
    rw [get?_withGenerated, get?_withGenerated, h.entries key hne]

variable {name : String}

namespace Targets

variable (t : Targets) (blockDest : String)

theorem staged_of_agreeOff {a b : Step} (h : a.AgreeOff name b) (inputs : List String) :
    t.staged a blockDest inputs = t.staged b blockDest inputs := by
  unfold staged
  rw [h.mode_eq, h.name_eq]

/-- **A chain is wired by the names and modes of its steps**, whatever they build. -/
theorem forall₂_wire {chain other : List Step} (h : List.Forall₂ (Step.AgreeOff name) chain other) :
    ∀ inputs, List.Forall₂ (Position.AgreeOff name) (t.wire blockDest chain inputs) (t.wire blockDest other inputs) := by
  induction h with
  | nil => exact fun _ => .nil
  | cons hstep hrest ih =>
    intro inputs
    -- what is staged here is the input of the next step, and the last step has no next
    cases hrest with
    | nil => exact .cons ⟨hstep, rfl⟩ .nil
    | cons hnext _ =>
      have hstaged := t.staged_of_agreeOff blockDest hstep inputs
      rw [wire, wire]
      refine .cons ⟨hstep, hstaged⟩ ?_
      rw [Position.outputs, Position.outputs, hstaged]
      exact ih _

end Targets

/-! ### Sections of other names -/

theorem Position.AgreeOff.collect {p q : Position} (h : p.AgreeOff name q) (hname : p.step.name ≠ name)
    (current : Object) : p.collect current = q.collect current := by
  rw [Position.collect, Position.collect, h.mappings_eq, h.step.fragment_eq hname]

namespace Flow

variable {f g : Flow}

theorem postsAfter_eq_of_filter (h : f.followers.filter (·.step != name) = g.followers.filter (·.step != name))
    (kind : String) {step : String} (hstep : step ≠ name) : f.postsAfter kind step = g.postsAfter kind step := by
  have hfilter : ∀ followers : List Follower, followers.filter (fun x => x.blockType == kind && x.step == step) =
      (followers.filter (·.step != name)).filter (fun x => x.blockType == kind && x.step == step) := by
    intro followers
    rw [List.filter_filter]
    refine List.filter_congr fun x _ => ?_
    by_cases hx : x.step = step
    · have hne : x.step ≠ name := hx ▸ hstep
      simp [hne]
    · simp [hx]
  rw [postsAfter, postsAfter, hfilter, hfilter g.followers, h]

theorem sectionAfter_eq (h : f.AgreeOff name g) (block : Block) {p q : Position} (hpos : p.AgreeOff name q)
    (hname : p.step.name ≠ name) (current : Object) : f.sectionAfter block p current = g.sectionAfter block q current := by
  have hposts := h.posts block.kind p.step.name hname
  rw [sectionAfter, sectionAfter, hpos.collect hname, hposts, hpos.step.name_eq]

theorem sectionThrough_eq (h : f.AgreeOff name g) (block : Block) {other : String} (hother : other ≠ name)
    {ps qs : List Position} (hpos : List.Forall₂ (Position.AgreeOff name) ps qs) :
    ∀ current, f.sectionThrough block other ps current = g.sectionThrough block other qs current := by
  induction hpos with
  | nil => exact fun _ => rfl
  | @cons p q ps qs hp _ ih =>
    intro current
    have hname := hp.step.name_eq
    by_cases hself : other = p.step.name
    · have hafter := f.sectionAfter_eq h block hp (hself ▸ hother) current
      have hp_self := f.sectionThrough_cons_self block p ps current
      have hq_self := g.sectionThrough_cons_self block q qs current
      rw [← hself] at hp_self
      rw [← hname, ← hself] at hq_self
      rw [hp_self, hq_self, hafter, ih]
    · rw [f.sectionThrough_cons_of_ne block hself, g.sectionThrough_cons_of_ne block (hname ▸ hself), ih]

end Flow

namespace Compiler

variable {c d : Compiler}

theorem forall₂_positions (h : c.AgreeOff name d) (block : Block) (sources : List String) :
    List.Forall₂ (Position.AgreeOff name) (c.positions block sources) (d.positions block sources) := by
  rw [positions, positions, h.targets_eq]
  exact d.targets.forall₂_wire block.dest (h.flow.chains block.kind) sources

theorem touches_iff (h : c.AgreeOff name d) (step : String) (job : Job) : c.Touches step job ↔ d.Touches step job := by
  have hnames := map_eq_of_forall₂ (fun _ _ hstep => hstep.name_eq) (h.flow.chains job.block.kind)
  rw [Touches, Touches, hnames]

theorem sectionThrough_eq (h : c.AgreeOff name d) (resolved : Job → List String) {other : String}
    (hother : other ≠ name) : ∀ (jobs : List Job) (current : Object),
    c.sectionThrough resolved other jobs current = d.sectionThrough resolved other jobs current
  | [], _ => rfl
  | job :: jobs, current => by
    have hblock := Flow.sectionThrough_eq h.flow job.block hother (forall₂_positions h job.block (resolved job)) current
    rw [sectionThrough_cons, sectionThrough_cons, positionsOf, positionsOf, hblock]
    exact sectionThrough_eq h resolved hother jobs _

theorem generateJobs_agreeOff (h : c.AgreeOff name d) (resolved : Job → List String) (jobs : List Job) :
    Config.AgreeOff name (c.generateJobs resolved jobs .nil) (d.generateJobs resolved jobs .nil) := by
  have htouched : ∀ key, (∃ job ∈ jobs, c.Touches key job) ↔ ∃ job ∈ jobs, d.Touches key job := fun key => by
    simp only [touches_iff h]
  constructor
  · intro key
    rw [get?_generateJobs, get?_generateJobs]
    simp only [htouched]
    split <;> rfl
  · intro key hkey
    have hsection := sectionThrough_eq h resolved hkey jobs (sectionOf .nil key)
    rw [get?_generateJobs, get?_generateJobs, hsection]
    simp only [htouched]

theorem outcome_agreeOff (h : c.AgreeOff name d) (present : Path → Bool) (jobs : List Job) :
    (∃ e, (c.runJobs present jobs .nil).outcome = .error e ∧ (d.runJobs present jobs .nil).outcome = .error e) ∨
    ∃ resolved, (c.runJobs present jobs .nil).outcome = .ok (c.generateJobs resolved jobs .nil) ∧
      (d.runJobs present jobs .nil).outcome = .ok (d.generateJobs resolved jobs .nil) := by
  cases hrun : (c.runJobs present jobs .nil).outcome with
  | error e =>
    -- which references lead nowhere depends on the search alone
    have hfault := c.faultOf_runJobs present jobs .nil
    rw [hrun, h.search_eq, ← d.faultOf_runJobs present jobs .nil] at hfault
    exact .inl ⟨e, rfl, faultOf_eq_some.1 hfault.symm⟩
  | ok generated =>
    obtain ⟨resolved, hresolved⟩ := c.exists_resolved present hrun
    have hc := c.runJobs_of_resolved present resolved jobs .nil hresolved
    rw [h.search_eq] at hresolved
    have hd := d.runJobs_of_resolved present resolved jobs .nil hresolved
    exact .inr ⟨resolved, hrun ▸ hc, hd⟩

/-- **Steps do not interfere.**  Compilers that differ in nothing but what the steps of a name build and in what follows
these wire every block alike.  They succeed on the same pages, or fail with the same fault, and leave configurations
with the same keys that hold the same at every other key. -/
theorem update_agreeOff (h : c.AgreeOff name d) (present : Path → Bool) (pages : List Page) (config : Config) :
    (∀ block sources, (c.positions block sources).map Position.mappings =
      (d.positions block sources).map Position.mappings) ∧
    ((c.update present pages).run.run config).1 = ((d.update present pages).run.run config).1 ∧
    Config.AgreeOff name ((c.update present pages).run.run config).2 ((d.update present pages).run.run config).2 := by
  refine ⟨fun block sources =>
    map_eq_of_forall₂ (fun _ _ hpos => hpos.mappings_eq) (forall₂_positions h block sources), ?_⟩
  rw [update_eq, update_eq]
  rcases outcome_agreeOff h present (jobsOf pages) with ⟨e, hc, hd⟩ | ⟨resolved, hc, hd⟩
  · rw [hc, hd]
    exact ⟨rfl, .refl name config⟩
  · rw [hc, hd]
    exact ⟨rfl, (generateJobs_agreeOff h resolved (jobsOf pages)).withGenerated config⟩

/-- A chain with a step `mark` that builds what it is given, and what follows it. -/
def marking (build : Mapping → Json) (followers : List Follower) : Compiler where
  flow.chains := [("js", [.uglify, ⟨"mark", .merged, .custom build⟩, .concat])]
  flow.followers := followers ++ [⟨"js", "concat", ⟨"concat", .options (.bool true)⟩⟩]
  targets := ⟨⟨"dist"⟩, ⟨".tmp"⟩⟩
  search := ⟨[⟨"app"⟩], false, none⟩

theorem agreeOff_marking (build build' : Mapping → Json) {followers followers' : List Follower}
    (h : ∀ f ∈ followers, f.step = "mark") (h' : ∀ f ∈ followers', f.step = "mark") :
    (marking build followers).AgreeOff "mark" (marking build' followers') := by
  refine ⟨rfl, rfl, fun kind => ?_, fun kind step hstep => Flow.postsAfter_eq_of_filter ?_ kind hstep⟩
  · have hmark : Step.AgreeOff "mark" ⟨"mark", .merged, .custom build⟩ ⟨"mark", .merged, .custom build'⟩ :=
      ⟨rfl, rfl, fun hne => absurd rfl hne⟩
    have hsame : ∀ s : Step, s.AgreeOff "mark" s := fun s => ⟨rfl, rfl, fun _ => rfl⟩
    unfold Flow.chainOf
    by_cases hkind : "js" = kind
    · simp [marking, hkind, hmark, hsame]
    · simp [marking, hkind]
  · have hnil : ∀ fs : List Follower, (∀ f ∈ fs, f.step = "mark") → fs.filter (·.step != "mark") = [] := fun fs hfs =>
      List.filter_eq_nil_iff.2 fun f hf => by simp [hfs f hf]
    simp only [marking, List.filter_append, hnil followers h, hnil followers' h']

/-- A post-processor that takes away what `mark` asks for. -/
def unmark : Follower := ⟨"js", "mark", ⟨"mark", .custom fun _ _ => .nil⟩⟩

/-- With `mark` asking for nothing, or for files that a post-processor then takes away, all else is the same. -/
theorem update_marking :
    (marking (fun _ => .null) []).AgreeOff "mark" (marking Mapping.fileList [unmark]) ∧
    (((marking (fun _ => .null) []).update (fun _ => false) [.ofSources "js" "site.js" ["a.js"]]).run.run .nil).1 =
      .ok () ∧
    (((marking Mapping.fileList [unmark]).update (fun _ => false) [.ofSources "js" "site.js" ["a.js"]]).run.run .nil).1 =
      .ok () ∧
    Config.AgreeOff "mark"
      (((marking (fun _ => .null) []).update (fun _ => false) [.ofSources "js" "site.js" ["a.js"]]).run.run .nil).2
      (((marking Mapping.fileList [unmark]).update (fun _ => false) [.ofSources "js" "site.js" ["a.js"]]).run.run .nil).2
      := by
  have hagree : (marking (fun _ => .null) []).AgreeOff "mark" (marking Mapping.fileList [unmark]) :=
    agreeOff_marking _ _ (by simp) (by simp [unmark])
  obtain ⟨-, houtcome, hconfig⟩ := update_agreeOff hagree (fun _ => false) [.ofSources "js" "site.js" ["a.js"]] .nil
  exact ⟨hagree, rfl, houtcome.symm, hconfig⟩

end Compiler
end StepChain
