import StepChain.Proofs.Compile.Resolution
import StepChain.Proofs.Wiring.ClosedForm
/-!
# Strict and lenient runs

Where nothing exists that a reference could lead to, a strict search fails and a lenient one takes the first candidate;
all else they treat alike.  So what a strict search finds exists, and a lenient one finds it too
(`Search.resolve_of_strict`).  A lenient search fails only where the hook decides against a reference
(`Search.resolve_lenient_eq_error`).  Whole runs are no different (`Compiler.lenient_agrees`).
-/
namespace StepChain

open Json (Object)

namespace Search

/-- The hook decides against a reference: it cancels, or gives a path that does not exist. -/
inductive Refuses (s : Search) (present : Path → Bool) (r : Reference) : SourceFault → Prop where
  | cancelled (verdict : s.verdict r.page r.block r.text = .cancel) :
      Refuses s present r (.notFound r.text r.page.path)
  | missing {p : Path} (verdict : s.verdict r.page r.block r.text = .override p) (absent : present p = false) :
      Refuses s present r (.overrideMissing p)

theorem verdict_of_no_hook {s : Search} (h : s.hook = none) (page : Page) (block : Block) (reference : String) :
    s.verdict page block reference = .defer := by
  rw [verdict, h]

theorem not_refuses_of_no_hook {s : Search} (h : s.hook = none) {present : Path → Bool} {r : Reference}
    {e : SourceFault} : ¬ s.Refuses present r e := by
  rintro (hv | ⟨hv, -⟩)
  all_goals
    rw [verdict_of_no_hook h] at hv
    cases hv

variable (roots : List Path) (hook : Option Hook) (present : Path → Bool)

theorem firstPresent_of_strict {page : Page} {reference : String} {p : Path}
    (h : firstPresent ⟨roots, true, hook⟩ present page reference = .ok p) :
    firstPresent ⟨roots, false, hook⟩ present page reference = .ok p ∧ present p = true := by
  have htried : candidates ⟨roots, false, hook⟩ page.dir reference =
      candidates ⟨roots, true, hook⟩ page.dir reference := rfl
  unfold firstPresent at *
  rw [htried]
  cases hfirst : (candidates ⟨roots, true, hook⟩ page.dir reference).find? present with
  | none => simp [hfirst] at h
  | some q =>
    simp only [hfirst] at h ⊢
    obtain rfl := Except.ok.inj h
    exact ⟨rfl, List.find?_some hfirst⟩

theorem exists_firstPresent_lenient (page : Page) (reference : String) :
    ∃ p, firstPresent ⟨roots, false, hook⟩ present page reference = .ok p := by
  unfold firstPresent
  dsimp only
  split
  · exact ⟨_, rfl⟩
  · exact ⟨_, rfl⟩

/-- **What a strict search finds exists, and a lenient one finds it too.** -/
theorem resolve_of_strict {r : Reference} {p : Path} (h : resolve ⟨roots, true, hook⟩ present r = .ok p) :
    resolve ⟨roots, false, hook⟩ present r = .ok p ∧ present p = true := by
  unfold resolve at *
  rcases (find_eq_ok _).1 h with ⟨hverdict, hpresent⟩ | ⟨hverdict, hfirst⟩
  · exact ⟨(find_eq_ok _).2 (.inl ⟨hverdict, hpresent⟩), hpresent⟩
  · obtain ⟨hlenient, hpresent⟩ := firstPresent_of_strict roots hook present hfirst
    exact ⟨(find_eq_ok _).2 (.inr ⟨hverdict, hlenient⟩), hpresent⟩

/-- **A lenient search fails exactly where the hook decides against a reference.** -/
theorem resolve_lenient_eq_error {r : Reference} {e : SourceFault} :
    resolve ⟨roots, false, hook⟩ present r = .error e ↔ Refuses ⟨roots, false, hook⟩ present r e := by
  unfold resolve find
  constructor
  · intro h
    cases hv : verdict ⟨roots, false, hook⟩ r.page r.block r.text with
    | override q =>
      simp only [hv, settle] at h
      by_cases hq : present q = true
      · rw [if_pos hq] at h
        cases h
      · rw [if_neg hq] at h
        cases h
        exact .missing hv (by simpa using hq)
    | cancel =>
      simp only [hv, settle] at h
      cases h
      exact .cancelled hv
    | defer =>
      obtain ⟨p, hp⟩ := exists_firstPresent_lenient roots hook present r.page r.text
      simp only [hv, settle, hp] at h
      cases h
  · rintro (hv | ⟨hv, habsent⟩)
    · simp only [hv, settle]
    · simp only [hv, settle, habsent, Bool.false_eq_true, if_false]

theorem sources_of_strict {job : Job} {sources : List String}
    (h : Search.sources ⟨roots, true, hook⟩ present job = .ok sources) :
    Search.sources ⟨roots, false, hook⟩ present job = .ok sources ∧ ∀ source ∈ sources, present ⟨source⟩ = true := by
  have hone : ∀ reference source,
      (find ⟨roots, true, hook⟩ present job.page job.block reference).map Path.text = .ok source →
      (find ⟨roots, false, hook⟩ present job.page job.block reference).map Path.text = .ok source ∧
        present ⟨source⟩ = true := by
    intro reference source hsource
    obtain ⟨p, hp, rfl⟩ := exists_of_map_eq_ok hsource
    obtain ⟨hlenient, hpresent⟩ :=
      resolve_of_strict roots hook present (r := ⟨job.page, job.block, reference⟩) hp
    unfold resolve at hlenient
    rw [hlenient]
    exact ⟨rfl, hpresent⟩
  unfold Search.sources at *
  constructor
  · exact mapM_eq_ok_iff.2 ((mapM_eq_ok_iff.1 h).imp fun reference source hsource => (hone reference source hsource).1)
  · intro source hmem
    obtain ⟨reference, -, hsource⟩ := exists_of_mem_mapM h hmem
    exact (hone reference source hsource).2

end Search

namespace Compiler

theorem ofLayout_eq_ok {flow : Flow} {layout : Layout} {behavior : Behavior} {c : Compiler} :
    ofLayout flow layout behavior = .ok c ↔ layout.check = .ok () ∧
      c = ⟨flow, ⟨layout.dest, layout.staging⟩, ⟨layout.rootList, behavior.strict, behavior.hook⟩⟩ := by
  unfold ofLayout
  cases layout.check with
  | error e => simp [bind, Except.bind]
  | ok => simp [bind, Except.bind, pure, Except.pure, eq_comm]

theorem inputs_first (c : Compiler) {block : Block} {sources : List String} {first : Position}
    (h : (c.positions block sources)[0]? = some first) : first.inputs = sources := by
  rw [c.targets.inputs_of_getElem?_wire block.dest h, List.take_zero]
  rfl

section

variable (flow : Flow) (targets : Targets) (roots : List Path) (hook : Option Hook) (present : Path → Bool)

theorem runJobs_of_strict {jobs : List Job} {generated result : Object}
    (h : (runJobs ⟨flow, targets, ⟨roots, true, hook⟩⟩ present jobs generated).outcome = .ok result) :
    (runJobs ⟨flow, targets, ⟨roots, false, hook⟩⟩ present jobs generated).outcome = .ok result := by
  obtain ⟨resolved, hresolved⟩ := exists_resolved _ present h
  have hstrict := runJobs_of_resolved _ present resolved jobs generated hresolved
  have hlenient := runJobs_of_resolved ⟨flow, targets, ⟨roots, false, hook⟩⟩ present resolved jobs generated
    fun job hjob => (Search.sources_of_strict roots hook present (hresolved job hjob)).1
  rw [h] at hstrict
  -- what is generated depends on the sources that were found, not on the search
  exact hlenient.trans hstrict.symm

theorem update_of_strict {pages : List Page} {config : Config}
    (h : ((update ⟨flow, targets, ⟨roots, true, hook⟩⟩ present pages).run.run config).1 = .ok ()) (start : Config) :
    ∃ result, (update ⟨flow, targets, ⟨roots, true, hook⟩⟩ present pages).run.run start = (.ok (), result) ∧
      (update ⟨flow, targets, ⟨roots, false, hook⟩⟩ present pages).run.run start = (.ok (), result) := by
  rw [update_eq] at h
  cases hrun : (runJobs ⟨flow, targets, ⟨roots, true, hook⟩⟩ present (jobsOf pages) .nil).outcome with
  | error e =>
    rw [hrun] at h
    cases h
  | ok generated =>
    refine ⟨start.withGenerated generated, ?_, ?_⟩
    · rw [update_eq, hrun]
    · rw [update_eq, runJobs_of_strict flow targets roots hook present hrun]

theorem present_of_strict {pages : List Page} {config : Config}
    (h : ((update ⟨flow, targets, ⟨roots, true, hook⟩⟩ present pages).run.run config).1 = .ok ()) {page : Page}
    (hpage : page ∈ pages) {block : Block} (hblock : block ∈ page.blocks) :
    ∃ sources, Search.sources ⟨roots, true, hook⟩ present ⟨page, block⟩ = .ok sources ∧
      Search.sources ⟨roots, false, hook⟩ present ⟨page, block⟩ = .ok sources ∧
      ∀ source ∈ sources, present ⟨source⟩ = true := by
  have hjob : Job.mk page block ∈ jobsOf pages := mem_jobsOf.2 ⟨page, hpage, block, hblock, rfl⟩
  obtain ⟨result, hrun, -⟩ := update_of_strict flow targets roots hook present h .nil
  obtain ⟨resolved, hresolved, -⟩ := exists_resolved_of_run _ present (run_of_update _ present hrun)
  obtain ⟨hlenient, hpresent⟩ := Search.sources_of_strict roots hook present (hresolved _ hjob)
  exact ⟨_, hresolved _ hjob, hlenient, hpresent⟩

theorem refuses_of_update_lenient {pages : List Page} {config : Config} {e : SourceFault}
    (h : ((update ⟨flow, targets, ⟨roots, false, hook⟩⟩ present pages).run.run config).1 = .error e) :
    ∃ before r after, referencesOf pages = before ++ r :: after ∧
      (∀ q ∈ before, ∃ p, Search.resolve ⟨roots, false, hook⟩ present q = .ok p) ∧
      Search.Refuses ⟨roots, false, hook⟩ present r e := by
  obtain ⟨before, r, after, hsplit, hbefore, hr⟩ := (atomic_update _ present pages config).first e h
  exact ⟨before, r, after, hsplit, hbefore, (Search.resolve_lenient_eq_error roots hook present).1 hr⟩

end

/-- **Strict and lenient runs agree.**  Of two compilers that differ in strictness alone, what the strict one compiles
the lenient one compiles to the same configuration, and everything that the first position of a chain is given exists.
The lenient one fails only at a reference that the hook decides against, so never without a hook. -/
theorem lenient_agrees {flow : Flow} {layout : Layout} {hook : Option Hook} {strict lenient : Compiler}
    (hstrict : ofLayout flow layout ⟨true, hook⟩ = .ok strict)
    (hlenient : ofLayout flow layout ⟨false, hook⟩ = .ok lenient) (present : Path → Bool) (pages : List Page) :
    (∀ config, ((strict.update present pages).run.run config).1 = .ok () →
      (∀ start, ∃ result, (strict.update present pages).run.run start = (.ok (), result) ∧
        (lenient.update present pages).run.run start = (.ok (), result)) ∧
      ∀ page ∈ pages, ∀ block ∈ page.blocks, ∃ sources,
        strict.search.sources present ⟨page, block⟩ = .ok sources ∧
        lenient.search.sources present ⟨page, block⟩ = .ok sources ∧
        strict.positions block sources = lenient.positions block sources ∧
        ∀ first, (strict.positions block sources)[0]? = some first → ∀ source ∈ first.inputs, present ⟨source⟩ = true) ∧
    (∀ config e, ((lenient.update present pages).run.run config).1 = .error e →
      ∃ before r after, referencesOf pages = before ++ r :: after ∧
        (∀ q ∈ before, ∃ p, lenient.search.resolve present q = .ok p) ∧ lenient.search.Refuses present r e) ∧
    (hook = none → ∀ config, ((lenient.update present pages).run.run config).1 = .ok ()) := by
  obtain ⟨-, rfl⟩ := ofLayout_eq_ok.1 hstrict
  obtain ⟨-, rfl⟩ := ofLayout_eq_ok.1 hlenient
  refine ⟨fun config hok => ⟨update_of_strict _ _ _ hook present hok, ?_⟩,
    fun config e he => refuses_of_update_lenient _ _ _ hook present he, ?_⟩
  · intro page hpage block hblock
    obtain ⟨sources, hs, hl, hpresent⟩ := present_of_strict _ _ _ hook present hok hpage hblock
    refine ⟨sources, hs, hl, rfl, fun first hfirst source hsource => ?_⟩
    rw [inputs_first _ hfirst] at hsource
    exact hpresent source hsource
  · intro hnone config
    cases hres : ((update _ present pages).run.run config).1 with
    | ok _ => rfl
    | error e =>
      obtain ⟨-, r, -, -, -, hrefuses⟩ := refuses_of_update_lenient _ _ _ hook present hres
      exact absurd hrefuses (Search.not_refuses_of_no_hook hnone)

def searching (strict : Bool) (hook : Option Hook) : Compiler :=
  { ofChain "js" [.concat] with search := ⟨[⟨"app"⟩], strict, hook⟩ }

theorem ofLayout_searching (strict : Bool) (hook : Option Hook) : ofLayout (ofChain "js" [.concat]).flow
    ⟨some ⟨"app"⟩, none, ⟨"dist"⟩, ⟨".tmp"⟩⟩ ⟨strict, hook⟩ = .ok (searching strict hook) := rfl

/-- Takes one file from elsewhere and leaves another one out. -/
def vendored : Hook := fun q =>
  if q.reference = "b.js" then .override ⟨"vendor/b.js"⟩ else if q.reference = "c.js" then .cancel else .defer

def vendoredFiles (p : Path) : Bool := p = ⟨"app/a.js"⟩ ∨ p = ⟨"vendor/b.js"⟩

/-- One file is found and one taken from elsewhere.  A third one, left out by the hook, fails the lenient run too; with
no hook that run takes it as it is. -/
theorem lenient_agrees_vendored :
    (∃ result, ((searching true (some vendored)).update vendoredFiles
        [.ofSources "js" "site.js" ["a.js", "b.js"]]).run.run .nil = (.ok (), result) ∧
      ((searching false (some vendored)).update vendoredFiles
        [.ofSources "js" "site.js" ["a.js", "b.js"]]).run.run .nil = (.ok (), result)) ∧
    (∃ r ∈ referencesOf [.ofSources "js" "site.js" ["a.js", "c.js"]],
      (searching false (some vendored)).search.Refuses vendoredFiles r (.notFound "c.js" ⟨"index.html"⟩)) ∧
    (((searching false none).update (fun _ => false)
      [.ofSources "js" "site.js" ["a.js", "c.js"]]).run.run .nil).1 = .ok () := by
  obtain ⟨hagree, -, -⟩ := lenient_agrees (ofLayout_searching true (some vendored))
    (ofLayout_searching false (some vendored)) vendoredFiles [.ofSources "js" "site.js" ["a.js", "b.js"]]
  obtain ⟨-, hrefuses, -⟩ := lenient_agrees (ofLayout_searching true (some vendored))
    (ofLayout_searching false (some vendored)) vendoredFiles [.ofSources "js" "site.js" ["a.js", "c.js"]]
  obtain ⟨-, -, hplain⟩ := lenient_agrees (ofLayout_searching true none) (ofLayout_searching false none)
    (fun _ => false) [.ofSources "js" "site.js" ["a.js", "c.js"]]
  obtain ⟨⟨⟩, hok⟩ := faultOf_eq_none.1 (show faultOf (((searching true (some vendored)).update vendoredFiles
    [.ofSources "js" "site.js" ["a.js", "b.js"]]).run.run .nil).1 = none by decide +kernel)
  have hfault := faultOf_eq_some.1 (show faultOf (((searching false (some vendored)).update vendoredFiles
    [.ofSources "js" "site.js" ["a.js", "c.js"]]).run.run .nil).1 = some (.notFound "c.js" ⟨"index.html"⟩) by
      decide +kernel)
  obtain ⟨before, r, after, hsplit, -, hr⟩ := hrefuses .nil _ hfault
  have hmem : r ∈ referencesOf [.ofSources "js" "site.js" ["a.js", "c.js"]] := by
    rw [hsplit]
    exact List.mem_append_right before List.mem_cons_self
  exact ⟨(hagree .nil hok).1 .nil, ⟨r, hmem, hr⟩, hplain rfl .nil⟩

end Compiler

end StepChain
