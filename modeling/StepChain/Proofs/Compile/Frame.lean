import StepChain.Proofs.Compile.Sections
/-!
# What a run writes

A run sets the generated sections of the steps that the chains of its blocks have, and writes nothing else
(`Augments`).  What it sets is one object for all configurations (`update_augments`), so nothing that a caller keeps in
a configuration has a say in it.
-/
namespace StepChain

open Json (Object Members)

/-- A configuration in which the sections of `generated` are set, each in the entry of its name and over whatever stood
there.  All else is as before. -/
structure Augments (generated : Object) (config result : Config) : Prop where
  set : ∀ name v, generated.get? name = some v → ∃ entry, result.get? name = some (.object entry) ∧
    entry.get? sectionKey = some v ∧
    ∀ key, key ≠ sectionKey → entry.get? key = (entryMembers (config.get? name)).get? key
  kept : ∀ name, generated.get? name = none → result.get? name = config.get? name

theorem augments_withGenerated (generated : Object) (config : Config) :
    Augments generated config (config.withGenerated generated) := by
  constructor
  · intro name v hv
    have hentry := get?_withGenerated config generated name
    rw [hv] at hentry
    refine ⟨_, hentry, ?_, fun key hkey => ?_⟩
    · rw [Members.get?_insert, if_pos rfl]
    · rw [Members.get?_insert, if_neg hkey]
  · intro name hnone
    rw [get?_withGenerated, hnone]

namespace Compiler

variable (c : Compiler) (present : Path → Bool)

theorem exists_touches_iff (pages : List Page) (name : String) :
    (∃ job ∈ jobsOf pages, c.Touches name job) ↔
      ∃ page ∈ pages, ∃ block ∈ page.blocks, ∃ step ∈ c.flow.chainOf block.kind, step.name = name := by
  simp only [jobsOf, List.mem_flatMap, List.mem_map, Touches]
  constructor
  · rintro ⟨job, ⟨page, hpage, block, hblock, rfl⟩, htouch⟩
    exact ⟨page, hpage, block, hblock, htouch⟩
  · rintro ⟨page, hpage, block, hblock, htouch⟩
    exact ⟨⟨page, block⟩, ⟨page, hpage, block, hblock, rfl⟩, htouch⟩

/-- Read at a step that some block's chain has, a run that succeeds leaves what the step collected over all blocks. -/
theorem exists_section_of_update {pages : List Page} {config result : Config}
    (hrun : (c.update present pages).run.run config = (.ok (), result)) :
    ∃ resolved : Job → List String, ∀ name, (∃ job ∈ jobsOf pages, c.Touches name job) → ∃ entry,
      result.get? name = some (.object entry) ∧
      entry.get? sectionKey = some (.object (c.sectionThrough resolved name (jobsOf pages) .nil)) := by
  obtain ⟨resolved, -, rfl⟩ := c.exists_resolved_of_run present (c.run_of_update present hrun)
  refine ⟨resolved, fun name htouched => ?_⟩
  have hgenerated := c.get?_generateJobs resolved name (jobsOf pages) .nil
  rw [if_pos htouched] at hgenerated
  obtain ⟨entry, hentry, hsection, -⟩ := (augments_withGenerated _ config).set name _ hgenerated
  exact ⟨entry, hentry, hsection⟩

theorem isSome_get?_generateJobs (resolved : Job → List String) (pages : List Page) (name : String) :
    ((c.generateJobs resolved (jobsOf pages) .nil).get? name).isSome ↔
      ∃ page ∈ pages, ∃ block ∈ page.blocks, ∃ step ∈ c.flow.chainOf block.kind, step.name = name := by
  rw [← c.exists_touches_iff pages name, get?_generateJobs]
  by_cases h : ∃ job ∈ jobsOf pages, c.Touches name job
  · rw [if_pos h]
    simp [h]
  · rw [if_neg h]
    simp [h]

/-- **A run augments the caller's configuration.**  It succeeds or fails alike on all configurations, and if it
succeeds there is one object of generated sections for all of them: one for each step of a chain that a block has.
Every configuration gets these sections, in place of what was generated before, and keeps all else. -/
theorem update_augments (pages : List Page) :
    (∀ config₁ config₂, ((c.update present pages).run.run config₁).1 = ((c.update present pages).run.run config₂).1) ∧
    ((∃ config, ((c.update present pages).run.run config).1 = .ok ()) → ∃ generated : Object,
      (∀ name, (generated.get? name).isSome ↔
        ∃ page ∈ pages, ∃ block ∈ page.blocks, ∃ step ∈ c.flow.chainOf block.kind, step.name = name) ∧
      ∀ config, Augments generated config ((c.update present pages).run.run config).2) := by
  simp only [update_eq]
  cases hrun : (c.runJobs present (jobsOf pages) .nil).outcome with
  | error e =>
    refine ⟨fun _ _ => rfl, ?_⟩
    rintro ⟨config, hok⟩
    cases hok
  | ok generated =>
    obtain ⟨resolved, hresolved⟩ := c.exists_resolved present hrun
    have hgenerated := c.runJobs_of_resolved present resolved (jobsOf pages) .nil hresolved
    rw [hrun] at hgenerated
    obtain rfl := Except.ok.inj hgenerated
    exact ⟨fun _ _ => rfl, fun _ => ⟨_, c.isSome_get?_generateJobs resolved pages, augments_withGenerated _⟩⟩

/-- A configuration with an old section, an entry that is no object and an entry of the caller's, beside an empty one. -/
theorem augments_staleSection : ∃ generated : Object,
    (∀ name, (generated.get? name).isSome ↔
      ∃ page ∈ [Page.ofSources "js" "site.js" ["a.js"]], ∃ block ∈ page.blocks,
        ∃ step ∈ (Compiler.ofChain "js" [.concat, .uglify]).flow.chainOf block.kind, step.name = name) ∧
    ∀ config ∈ [Members.ofList [("concat", .object (Members.ofList [("generated", .bool true), ("misc", .null)])),
        ("uglify", .string "old"), ("watch", .bool false)], .nil],
      Augments generated config (((Compiler.ofChain "js" [.concat, .uglify]).update (fun _ => false)
        [.ofSources "js" "site.js" ["a.js"]]).run.run config).2 := by
  obtain ⟨-, hset⟩ := (Compiler.ofChain "js" [.concat, .uglify]).update_augments (fun _ => false)
    [.ofSources "js" "site.js" ["a.js"]]
  obtain ⟨generated, hkeys, haugments⟩ := hset ⟨.nil, rfl⟩
  exact ⟨generated, hkeys, fun config _ => haugments config⟩

end Compiler

end StepChain
