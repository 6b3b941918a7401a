import StepChain.Proofs.Compile.Frame
/-!
# Runs in succession

What a run sets takes the place of what an earlier run set, name by name (`withGenerated_withGenerated`).  Within one
run, blocks whose chains share no step collect into sections of their own (`generatedBy_append`).  So of two runs in
turn the last one to touch a step decides its section, and runs that share no step may change places or be one
(`update_inTurn`).
-/
namespace StepChain

open Json (Object Members)

/-- The members of two objects; under a key of both stands that of the second. -/
def Json.Members.replacedBy (first second : Object) : Object := Members.mergeWith (fun _ _ new => new) first second

theorem Json.Members.get?_replacedBy (first second : Object) (key : String) :
    (first.replacedBy second).get? key = (second.get? key).or (first.get? key) := by
  rw [replacedBy, Members.get?_mergeWith]
  cases second.get? key <;> rfl

theorem Json.Members.replacedBy_self (o : Object) : o.replacedBy o = o := by
  apply Members.ext
  intro key
  rw [get?_replacedBy, Option.or_self]

theorem Json.Members.replacedBy_comm {first second : Object}
    (h : ∀ key, first.get? key = none ∨ second.get? key = none) :
    first.replacedBy second = second.replacedBy first := by
  apply Members.ext
  intro key
  rw [get?_replacedBy, get?_replacedBy]
  obtain hnone | hnone := h key
  · rw [hnone, Option.or_none, Option.none_or]
  · rw [hnone, Option.or_none, Option.none_or]

theorem entryWith_entryWith (entry : Option Json) (old new : Json) :
    entryWith (some (entryWith entry old)) new = entryWith entry new := by
  have hmembers : ((entryMembers entry).insert sectionKey old).insert sectionKey new =
      (entryMembers entry).insert sectionKey new := by
    apply Members.ext
    intro key
    by_cases hkey : key = sectionKey
    · simp only [Members.get?_insert, if_pos hkey]
    · simp only [Members.get?_insert, if_neg hkey]
  exact congrArg Json.object hmembers

namespace Config

/-- The generated section in the entry of a step. -/
def section? (config : Config) (name : String) : Option Json := (entryMembers (config.get? name)).get? sectionKey

/-- **What is set later replaces what was set before**, name by name. -/
theorem withGenerated_withGenerated (config : Config) (first second : Object) :
    Config.withGenerated (config.withGenerated first) second = config.withGenerated (first.replacedBy second) := by
  apply Members.ext
  intro name
  rw [get?_withGenerated, get?_withGenerated, get?_withGenerated, Members.get?_replacedBy]
  cases second.get? name with
  | none => rfl
  | some new =>
    cases first.get? name with
    | none => rfl
    | some old => exact congrArg some (entryWith_entryWith (config.get? name) old new)

theorem section?_withGenerated (config : Config) {generated : Object} {name : String} {v : Json}
    (h : generated.get? name = some v) : (config.withGenerated generated).section? name = some v := by
  obtain ⟨entry, hentry, hsection, -⟩ := (augments_withGenerated generated config).set name v h
  rw [section?, hentry]
  exact hsection

end Config

namespace Compiler

variable (c : Compiler) (present : Path → Bool)

/-- The names of the steps in the chains of the blocks of pages. -/
def touched (pages : List Page) : List String :=
  (jobsOf pages).flatMap fun job => (c.flow.chainOf job.block.kind).map Step.name

theorem mem_touched {pages : List Page} {name : String} :
    name ∈ c.touched pages ↔ ∃ job ∈ jobsOf pages, c.Touches name job := List.mem_flatMap

/-! ### What one run generates -/

/-- The sources that the references of a block lead to; none if one of them leads nowhere. -/
def found (job : Job) : List String := (c.search.sources present job).toOption.getD []

theorem sources_eq_found {job : Job} {sources : List String} (h : c.search.sources present job = .ok sources) :
    c.search.sources present job = .ok (c.found present job) := by
  rw [found, h]
  rfl

def generatedBy (pages : List Page) : Object := c.generateJobs (c.found present) (jobsOf pages) .nil

/-- Every reference of the blocks of pages leads somewhere. -/
def Resolves (pages : List Page) : Prop :=
  ∀ job ∈ jobsOf pages, c.search.sources present job = .ok (c.found present job)

theorem resolves_of_update {pages : List Page} {config result : Config}
    (h : (c.update present pages).run.run config = (.ok (), result)) : c.Resolves present pages := by
  obtain ⟨resolved, hresolved, -⟩ := c.exists_resolved_of_run present (c.run_of_update present h)
  exact fun job hjob => c.sources_eq_found present (hresolved job hjob)

theorem jobsOf_append (first second : List Page) : jobsOf (first ++ second) = jobsOf first ++ jobsOf second :=
  List.flatMap_append

variable {c present}

theorem Resolves.append {first second : List Page} (hfirst : c.Resolves present first)
    (hsecond : c.Resolves present second) : c.Resolves present (first ++ second) := by
  intro job hjob
  rw [jobsOf_append] at hjob
  obtain hmem | hmem := List.mem_append.1 hjob
  · exact hfirst job hmem
  · exact hsecond job hmem

theorem Resolves.update {pages : List Page} (h : c.Resolves present pages) (config : Config) :
    (c.update present pages).run.run config = (.ok (), config.withGenerated (c.generatedBy present pages)) := by
  rw [update_eq, c.runJobs_of_resolved present _ _ _ h, generatedBy]

theorem eq_of_update {pages : List Page} {config result : Config}
    (h : (c.update present pages).run.run config = (.ok (), result)) :
    result = config.withGenerated (c.generatedBy present pages) := by
  rw [(c.resolves_of_update present h).update] at h
  exact (Prod.mk.inj h).2.symm

variable (c present)

theorem exists_get?_generatedBy {pages : List Page} {name : String} (h : name ∈ c.touched pages) :
    ∃ v, (c.generatedBy present pages).get? name = some v := by
  rw [generatedBy, get?_generateJobs, if_pos (c.mem_touched.1 h)]
  exact ⟨_, rfl⟩

theorem get?_generatedBy_of_not_mem {pages : List Page} {name : String} (h : name ∉ c.touched pages) :
    (c.generatedBy present pages).get? name = none := by
  rw [generatedBy, get?_generateJobs, if_neg fun htouched => h (c.mem_touched.2 htouched)]
  rfl

/-- **Blocks whose chains share no step generate side by side**: what they collect in one run is what they collect in
two. -/
theorem generatedBy_append {first second : List Page} (h : (c.touched first).Disjoint (c.touched second)) :
    c.generatedBy present (first ++ second) =
      (c.generatedBy present first).replacedBy (c.generatedBy present second) := by
  have hsplit : c.generatedBy present (first ++ second) =
      c.generateJobs (c.found present) (jobsOf second) (c.generatedBy present first) := by
    rw [generatedBy, generatedBy, jobsOf_append, generateJobs, List.foldl_append]
    rfl
  apply Members.ext
  intro name
  rw [hsplit, Members.get?_replacedBy, get?_generateJobs]
  by_cases hsecond : name ∈ c.touched second
  · -- the first pages left nothing under the name, so the second start there as they would alone
    have hfirst : name ∉ c.touched first := fun hmem => h hmem hsecond
    rw [if_pos (c.mem_touched.1 hsecond), sectionOf, c.get?_generatedBy_of_not_mem present hfirst, generatedBy,
      get?_generateJobs, if_pos (c.mem_touched.1 hsecond), Option.some_or]
    rfl
  · rw [if_neg fun htouched => hsecond (c.mem_touched.2 htouched),
      c.get?_generatedBy_of_not_mem present hsecond, Option.none_or]

theorem generatedBy_comm {first second : List Page} (h : (c.touched first).Disjoint (c.touched second)) :
    (c.generatedBy present first).replacedBy (c.generatedBy present second) =
      (c.generatedBy present second).replacedBy (c.generatedBy present first) := by
  apply Members.replacedBy_comm
  intro name
  by_cases hname : name ∈ c.touched first
  · exact .inr (c.get?_generatedBy_of_not_mem present (h hname))
  · exact .inl (c.get?_generatedBy_of_not_mem present hname)

/-! ### Two runs in turn -/

def updateInTurn (first second : List Page) : ExceptT SourceFault (StateM Config) Unit := do
  c.update present first
  c.update present second

theorem updateInTurn_eq {first second : List Page} {config result : Config}
    (h : (c.update present first).run.run config = (.ok (), result)) :
    (c.updateInTurn present first second).run.run config = (c.update present second).run.run result := by
  rw [updateInTurn, ExceptT.run_bind, StateT.run_bind, h]
  rfl

theorem updateInTurn_of_resolves {first second : List Page} (hfirst : c.Resolves present first)
    (hsecond : c.Resolves present second) (config : Config) :
    (c.updateInTurn present first second).run.run config =
      (.ok (), config.withGenerated ((c.generatedBy present first).replacedBy (c.generatedBy present second))) := by
  rw [c.updateInTurn_eq present (hfirst.update config), hsecond.update, Config.withGenerated_withGenerated]

/-- The last of two runs to touch a step decides its section, and that section is the one the run leaves alone.  The
rest of the configuration is as it was. -/
structure LastWins (c : Compiler) (first second : List Page) (alone₁ alone₂ config result : Config) : Prop where
  later : ∀ name ∈ c.touched second, ∃ v, alone₂.section? name = some v ∧ result.section? name = some v
  earlier : ∀ name ∈ c.touched first, name ∉ c.touched second →
    ∃ v, alone₁.section? name = some v ∧ result.section? name = some v
  siblings : ∀ name ∈ c.touched (first ++ second), ∃ entry, result.get? name = some (.object entry) ∧
    ∀ key, key ≠ sectionKey → entry.get? key = (entryMembers (config.get? name)).get? key
  kept : ∀ name, name ∉ c.touched (first ++ second) → result.get? name = config.get? name

theorem touched_append (first second : List Page) :
    c.touched (first ++ second) = c.touched first ++ c.touched second := by
  rw [touched, jobsOf_append, List.flatMap_append, touched, touched]

theorem get?_replacedBy_generatedBy (first second : List Page) (name : String) :
    ((c.generatedBy present first).replacedBy (c.generatedBy present second)).get? name =
      if name ∈ c.touched second then (c.generatedBy present second).get? name
      else (c.generatedBy present first).get? name := by
  rw [Members.get?_replacedBy]
  by_cases hname : name ∈ c.touched second
  · obtain ⟨v, hv⟩ := c.exists_get?_generatedBy present hname
    rw [if_pos hname, hv, Option.some_or]
  · rw [if_neg hname, c.get?_generatedBy_of_not_mem present hname, Option.none_or]

theorem lastWins_withGenerated (first second : List Page) (start₁ start₂ config : Config) :
    c.LastWins first second (start₁.withGenerated (c.generatedBy present first))
      (start₂.withGenerated (c.generatedBy present second)) config
      (config.withGenerated ((c.generatedBy present first).replacedBy (c.generatedBy present second))) := by
  have haugments := augments_withGenerated
    ((c.generatedBy present first).replacedBy (c.generatedBy present second)) config
  have hget := c.get?_replacedBy_generatedBy present first second
  constructor
  · intro name hname
    obtain ⟨v, hv⟩ := c.exists_get?_generatedBy present hname
    refine ⟨v, Config.section?_withGenerated start₂ hv, Config.section?_withGenerated config ?_⟩
    rw [hget, if_pos hname, hv]
  · intro name hname huntouched
    obtain ⟨v, hv⟩ := c.exists_get?_generatedBy present hname
    refine ⟨v, Config.section?_withGenerated start₁ hv, Config.section?_withGenerated config ?_⟩
    rw [hget, if_neg huntouched, hv]
  · intro name hname
    rw [touched_append, List.mem_append] at hname
    have hset : ∃ v,
        ((c.generatedBy present first).replacedBy (c.generatedBy present second)).get? name = some v := by
      rw [hget]
      by_cases hsecond : name ∈ c.touched second
      · rw [if_pos hsecond]
        exact c.exists_get?_generatedBy present hsecond
      · rw [if_neg hsecond]
        exact c.exists_get?_generatedBy present (hname.resolve_right hsecond)
    obtain ⟨v, hv⟩ := hset
    obtain ⟨entry, hentry, -, hsiblings⟩ := haugments.set name v hv
    exact ⟨entry, hentry, hsiblings⟩
  · intro name hname
    rw [touched_append, List.mem_append, not_or] at hname
    apply haugments.kept
    rw [hget, if_neg hname.2, c.get?_generatedBy_of_not_mem present hname.1]

/-- **Of runs in succession the last one wins, step by step.**  If two lists of pages compile, then on every
configuration one after the other does, and each step has the section of the last run that touches it.  So compiling
pages a second time changes nothing, and if no step is touched by both, their order does not matter and they can be
compiled as one list. -/
theorem update_inTurn {first second : List Page} {start₁ start₂ alone₁ alone₂ : Config}
    (hfirst : (c.update present first).run.run start₁ = (.ok (), alone₁))
    (hsecond : (c.update present second).run.run start₂ = (.ok (), alone₂)) (config : Config) :
    (∃ result, (c.updateInTurn present first second).run.run config = (.ok (), result) ∧
      c.LastWins first second alone₁ alone₂ config result) ∧
    (c.updateInTurn present first first).run.run config = (c.update present first).run.run config ∧
    ((c.touched first).Disjoint (c.touched second) →
      (c.updateInTurn present first second).run.run config = (c.updateInTurn present second first).run.run config ∧
      (c.updateInTurn present first second).run.run config =
        (c.update present (first ++ second)).run.run config) := by
  have hresolves₁ := c.resolves_of_update present hfirst
  have hresolves₂ := c.resolves_of_update present hsecond
  obtain rfl := eq_of_update hfirst
  obtain rfl := eq_of_update hsecond
  -- from here on both runs are given by what they generate, which no configuration has a say in
  refine ⟨⟨_, c.updateInTurn_of_resolves present hresolves₁ hresolves₂ config,
    c.lastWins_withGenerated present first second start₁ start₂ config⟩, ?_, ?_⟩
  · rw [c.updateInTurn_of_resolves present hresolves₁ hresolves₁, Members.replacedBy_self, hresolves₁.update]
  · intro hdisjoint
    rw [c.updateInTurn_of_resolves present hresolves₁ hresolves₂]
    constructor
    · rw [c.updateInTurn_of_resolves present hresolves₂ hresolves₁, c.generatedBy_comm present hdisjoint]
    · rw [(hresolves₁.append hresolves₂).update, c.generatedBy_append present hdisjoint]

def threeTypes : Compiler :=
  { ofChain "js" [.concat, .uglify] with
    flow := ⟨[("js", [.concat, .uglify]), ("css", [.concat, .cssmin]), ("sheet", [.cssmin])], []⟩ }

def scripts : List Page := [.ofSources "js" "site.js" ["a.js"]]

def styles : List Page := [.ofSources "css" "site.css" ["a.css"]]

def sheets : List Page := [.ofSources "sheet" "site.css" ["a.css"]]

def staleConcat : Config :=
  Members.ofList [("concat", .object (Members.ofList [("generated", .bool true)])), ("watch", .bool false)]

/-- Scripts and then styles, over an old section: `concat` has the section of the styles and `uglify` keeps that of the
scripts.  Scripts and sheets share no step. -/
theorem update_inTurn_threeTypes :
    (∃ alone₁ alone₂ result, (threeTypes.update (fun _ => false) scripts).run.run .nil = (.ok (), alone₁) ∧
      (threeTypes.update (fun _ => false) styles).run.run .nil = (.ok (), alone₂) ∧
      (threeTypes.updateInTurn (fun _ => false) scripts styles).run.run staleConcat = (.ok (), result) ∧
      result.section? "concat" = alone₂.section? "concat" ∧ result.section? "uglify" = alone₁.section? "uglify" ∧
      result.get? "watch" = some (.bool false)) ∧
    (threeTypes.updateInTurn (fun _ => false) scripts sheets).run.run staleConcat =
      (threeTypes.update (fun _ => false) (scripts ++ sheets)).run.run staleConcat := by
  have hscripts : (threeTypes.update (fun _ => false) scripts).run.run .nil = (.ok (), _) := rfl
  have hstyles : (threeTypes.update (fun _ => false) styles).run.run .nil = (.ok (), _) := rfl
  have hsheets : (threeTypes.update (fun _ => false) sheets).run.run .nil = (.ok (), _) := rfl
  obtain ⟨⟨result, hresult, hwins⟩, -, -⟩ :=
    threeTypes.update_inTurn (fun _ => false) hscripts hstyles staleConcat
  obtain ⟨-, -, hapart⟩ := threeTypes.update_inTurn (fun _ => false) hscripts hsheets staleConcat
  obtain ⟨v, hconcat, hlater⟩ := hwins.later "concat" (by decide)
  obtain ⟨w, huglify, hearlier⟩ := hwins.earlier "uglify" (by decide) (by decide)
  refine ⟨⟨_, _, result, hscripts, hstyles, hresult, hlater.trans hconcat.symm, hearlier.trans huglify.symm, ?_⟩, ?_⟩
  · exact (hwins.kept "watch" (by decide)).trans rfl
  · exact (hapart (List.disjoint_left.2 (by decide))).2

end Compiler

end StepChain
