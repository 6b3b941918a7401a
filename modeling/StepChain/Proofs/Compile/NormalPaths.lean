import StepChain.Proofs.Compile.Record
import StepChain.Proofs.Path.Canonical
/-!
# Paths that steps are given

Whatever is made for a step is in normal form: all outputs are (`isNormalText_wire`), and so is every path that the
search comes to, unless the hook gives one of its own (`Search.becomes_of_find`).  Outputs are the inputs of the next
position, so in a whole run only a source that the hook gives may be written otherwise (`mappings_normal`).
-/
namespace StepChain

/-- The text of a normal form: it is not empty, and as a path it is its own normal form. -/
structure IsNormalText (s : String) : Prop where
  nonempty : s ≠ ""
  normal_eq : (Path.normal ⟨s⟩).text = s

theorem isNormalText_normal (p : Path) : IsNormalText p.normal.text := by
  have hagain : p.normal.normal = p.normal := Path.normal_eq_of_walk fun dir _ => Path.walk_normal p dir
  refine ⟨fun hempty => ?_, congrArg Path.text hagain⟩
  -- the normal form of the empty path is not empty
  have hp : p.normal = ⟨""⟩ := congrArg Path.mk hempty
  rw [hp] at hagain
  exact absurd hagain (by decide)

namespace Output

theorem isNormalText_final (dest : Path) (blockDest : String) : IsNormalText (final dest blockDest) := by
  rw [final]
  exact isNormalText_normal _

theorem isNormalText_staged (staging : Path) (step blockDest : String) :
    IsNormalText (staged staging step blockDest) := by
  rw [staged]
  exact isNormalText_normal _

theorem isNormalText_stagedFor (staging : Path) (step source : String) :
    IsNormalText (stagedFor staging step source) := by
  rw [stagedFor]
  exact isNormalText_normal _

end Output

namespace Targets

variable (t : Targets) (blockDest : String)

theorem isNormalText_of_mem_staged {step : Step} {inputs : List String} {m : Mapping}
    (h : m ∈ t.staged step blockDest inputs) : IsNormalText m.dest := by
  unfold staged at h
  cases hmode : step.mode with
  | merged =>
    rw [hmode, List.mem_singleton] at h
    subst h
    dsimp only
    exact Output.isNormalText_staged t.staging step.name blockDest
  | perSource =>
    rw [hmode] at h
    obtain ⟨input, -, rfl⟩ := List.mem_map.1 h
    dsimp only
    exact Output.isNormalText_stagedFor t.staging step.name input

theorem isNormalText_of_mem_thread {steps : List Step} (hsteps : steps ≠ []) {inputs : List String} {x : String}
    (h : x ∈ t.thread blockDest steps inputs) : IsNormalText x := by
  obtain rfl | ⟨before, last, rfl⟩ := List.eq_nil_or_concat steps
  · exact absurd rfl hsteps
  · rw [List.concat_eq_append, thread_concat] at h
    obtain ⟨m, hm, rfl⟩ := List.mem_map.1 h
    exact t.isNormalText_of_mem_staged blockDest hm

/-- **A chain makes and reads normal forms**, but for the inputs of its first position. -/
theorem isNormalText_wire {chain : List Step} {inputs : List String} {i : Nat} {p : Position}
    (h : (t.wire blockDest chain inputs)[i]? = some p) {m : Mapping} (hm : m ∈ p.mappings) :
    IsNormalText m.dest ∧ ∀ src ∈ m.src, IsNormalText src ∨ i = 0 ∧ src ∈ inputs := by
  have hinputs := t.inputs_of_getElem?_wire blockDest h
  constructor
  · rw [getElem?_wire, Option.map_eq_some_iff] at h
    obtain ⟨step, -, rfl⟩ := h
    dsimp only at hm
    split at hm
    · rw [List.mem_singleton.1 hm]
      dsimp only
      exact Output.isNormalText_final t.dest blockDest
    · exact t.isNormalText_of_mem_staged blockDest hm
  · intro src hsrc
    have hthread : src ∈ t.thread blockDest (chain.take i) inputs := by
      rw [← hinputs]
      exact List.mem_flatMap.2 ⟨m, hm, hsrc⟩
    by_cases hfirst : chain.take i = []
    · have hi : i = 0 := by
        rcases List.take_eq_nil_iff.1 hfirst with hi | rfl
        · exact hi
        · simp [wire] at h
      rw [hfirst] at hthread
      exact .inr ⟨hi, hthread⟩
    · exact .inl (t.isNormalText_of_mem_thread blockDest hfirst hthread)

end Targets

namespace Search

variable (s : Search) (present : Path → Bool)

/-- What a reference becomes: the path that the hook gives for it, as it is, and otherwise a normal form. -/
def Becomes (page : Page) (block : Block) (reference source : String) : Prop :=
  match s.verdict page block reference with
  | .override p => source = p.text
  | _ => IsNormalText source

theorem isNormalText_of_firstPresent {page : Page} {reference : String} {p : Path}
    (h : s.firstPresent present page reference = .ok p) : IsNormalText p.text := by
  have hcandidate : ∀ q ∈ s.candidates page.dir reference, IsNormalText q.text := by
    intro q hq
    obtain ⟨root, -, rfl⟩ := List.mem_map.1 hq
    exact isNormalText_normal _
  have hne : s.candidates page.dir reference ≠ [] := by simp [candidates, rootsFor]
  unfold firstPresent at h
  dsimp only at h
  split at h
  · rename_i q hfound
    obtain rfl := Except.ok.inj h
    exact hcandidate q (List.mem_of_find?_eq_some hfound)
  · split at h
    · cases h
    · -- the page's own directory is always searched, so there is a first candidate
      obtain rfl := Except.ok.inj h
      rw [List.head?_eq_some_head hne, Option.getD_some]
      exact hcandidate _ (List.head_mem hne)

theorem becomes_of_find {page : Page} {block : Block} {reference : String} {p : Path}
    (h : s.find present page block reference = .ok p) : s.Becomes page block reference p.text := by
  unfold Becomes
  rcases s.find_eq_ok.1 h with ⟨hverdict, -⟩ | ⟨hverdict, hfirst⟩
  · rw [hverdict]
  · rw [hverdict]
    exact s.isNormalText_of_firstPresent present hfirst

theorem becomes_of_map_find {page : Page} {block : Block} {reference source : String}
    (h : (s.find present page block reference).map Path.text = .ok source) : s.Becomes page block reference source := by
  obtain ⟨p, hp, rfl⟩ := exists_of_map_eq_ok h
  exact s.becomes_of_find present hp

theorem forall₂_becomes {job : Job} {sources : List String} (h : s.sources present job = .ok sources) :
    List.Forall₂ (s.Becomes job.page job.block) job.block.src sources :=
  (mapM_eq_ok_iff.1 h).imp fun _ _ hsource => s.becomes_of_map_find present hsource

theorem isNormalText_of_mem_sources {job : Job} {sources : List String} (h : s.sources present job = .ok sources)
    {source : String} (hmem : source ∈ sources) : IsNormalText source ∨
      ∃ reference ∈ job.block.src, s.verdict job.page job.block reference = .override ⟨source⟩ := by
  obtain ⟨reference, hreference, hsource⟩ := exists_of_mem_mapM h hmem
  have hbecomes := s.becomes_of_map_find present hsource
  unfold Becomes at hbecomes
  split at hbecomes
  · rename_i p hverdict
    subst hbecomes
    exact .inr ⟨reference, hreference, hverdict⟩
  · exact .inl hbecomes

end Search

namespace Compiler

variable (c : Compiler) (present : Path → Bool)

/-- **Steps are given normal forms.**  In a run that succeeds every reference becomes a normal form, or the path that
the hook gives for it.  In every mapping of every position the destination is a normal form, and so is each source,
unless the position is the first and the hook gave the source.  These are the mappings that steps are called for. -/
theorem mappings_normal {pages : List Page} {config result : Config}
    (hrun : (c.update present pages).run.run config = (.ok (), result)) :
    (∀ page ∈ pages, ∀ block ∈ page.blocks,
      List.Forall₂ (c.search.Becomes page block) block.src (c.found present ⟨page, block⟩) ∧
      ∀ i p, (c.positions block (c.found present ⟨page, block⟩))[i]? = some p → ∀ m ∈ p.mappings,
        IsNormalText m.dest ∧ ∀ src ∈ m.src, IsNormalText src ∨
          i = 0 ∧ ∃ reference ∈ block.src, c.search.verdict page block reference = .override ⟨src⟩) ∧
    ∀ step m, .step step m ∈ (c.run present pages config).calls ↔
      ∃ page ∈ pages, ∃ block ∈ page.blocks, ∃ p ∈ c.positions block (c.found present ⟨page, block⟩),
        p.step = step ∧ m ∈ p.mappings := by
  have hresolves := c.resolves_of_update present hrun
  constructor
  · intro page hpage block hblock
    have hsources := hresolves ⟨page, block⟩ (mem_jobsOf.2 ⟨page, hpage, block, hblock, rfl⟩)
    refine ⟨c.search.forall₂_becomes present hsources, fun i p hp m hm => ?_⟩
    obtain ⟨hdest, hsrc⟩ := c.targets.isNormalText_wire block.dest hp hm
    refine ⟨hdest, fun src hmem => ?_⟩
    rcases hsrc src hmem with hnormal | ⟨hi, hsource⟩
    · exact .inl hnormal
    · exact (c.search.isNormalText_of_mem_sources present hsources hsource).imp_right fun hgiven => ⟨hi, hgiven⟩
  · intro step m
    rw [calls_run, c.calls_runJobs_eq_record present hresolves, step_mem_record]
    constructor
    · rintro ⟨job, hjob, p, hp, hstep⟩
      obtain ⟨page, hpage, block, hblock, rfl⟩ := mem_jobsOf.1 hjob
      exact ⟨page, hpage, block, hblock, p, hp, hstep⟩
    · rintro ⟨page, hpage, block, hblock, p, hp, hstep⟩
      exact ⟨⟨page, block⟩, mem_jobsOf.2 ⟨page, hpage, block, hblock, rfl⟩, p, hp, hstep⟩

/-- A chain of three steps, and a hook that gives a path of its own for `b.js`. -/
def overriding : Compiler :=
  { ofChain "js" [.uglify, .concat, .uglify] with
    search := ⟨[⟨"app"⟩], false,
      some fun q => if q.reference = "b.js" then .override ⟨"vendor/./b.js"⟩ else .defer⟩ }

def parentBlock : Block := ⟨"js", "site.js", ["a.js", "b.js", ".."]⟩

def parentPage : Page := ⟨⟨"index.html"⟩, ⟨"."⟩, [parentBlock]⟩

/-- The path that the hook gives stays as it is, the only one that is no normal form; `..` becomes a directory. -/
theorem mappings_normal_overriding :
    (∃ result, (overriding.update (fun p => p = ⟨"vendor/./b.js"⟩) [parentPage]).run.run .nil = (.ok (), result)) ∧
    overriding.found (fun p => p = ⟨"vendor/./b.js"⟩) ⟨parentPage, parentBlock⟩ =
      ["app/a.js", "vendor/./b.js", "."] ∧
    ¬ IsNormalText "vendor/./b.js" ∧
    ∀ i p, (overriding.positions parentBlock ["app/a.js", "vendor/./b.js", "."])[i]? = some p → ∀ m ∈ p.mappings,
      IsNormalText m.dest ∧ ∀ src ∈ m.src, IsNormalText src ∨
        i = 0 ∧ ∃ reference ∈ parentBlock.src,
          overriding.search.verdict parentPage parentBlock reference = .override ⟨src⟩ := by
  have hrun : (overriding.update (fun p => p = ⟨"vendor/./b.js"⟩) [parentPage]).run.run .nil = (.ok (), _) := rfl
  have hfound : overriding.found (fun p => p = ⟨"vendor/./b.js"⟩) ⟨parentPage, parentBlock⟩ =
      ["app/a.js", "vendor/./b.js", "."] := by decide +kernel
  obtain ⟨hnormal, -⟩ := overriding.mappings_normal _ hrun
  obtain ⟨-, hmappings⟩ := hnormal parentPage List.mem_cons_self parentBlock List.mem_cons_self
  rw [hfound] at hmappings
  exact ⟨⟨_, hrun⟩, hfound, fun h => absurd h.normal_eq (by decide +kernel), hmappings⟩

end Compiler

end StepChain
