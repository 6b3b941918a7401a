import StepChain.Proofs.Compile.Frame
import StepChain.Proofs.Flow.Construction
/-!
# Which steps a run can write

The steps of a flow, each name once, are what one pass over all chains keeps that remembers the names it has seen
(`Flow.firstOfEachName_eq_unseen`): the first step of each name, in the order in which the names first occur.  A run over
a page that starts with no configuration writes the entries of the steps that the chains of its blocks have, and nothing
else (`Compiler.steps_inventory`).
-/
namespace StepChain

open Json (Object Members)

theorem Json.Members.mem_keys {key : String} : ∀ {low : Option String} {ms : Members low},
    key ∈ ms.keys ↔ (ms.get? key).isSome
  | _, .nil => by simp [keys, toList]
  | _, .cons k hk v rest => by
    have ih : key ∈ rest.keys ↔ (rest.get? key).isSome := mem_keys
    rw [keys] at ih
    rw [keys, toList, List.map_cons, List.mem_cons, ih, get?_cons]
    by_cases h : key = k <;> simp [h]

theorem eraseDups_filter {α : Type} [BEq α] [LawfulBEq α] (p : α → Bool) (xs : List α) :
    (xs.filter p).eraseDups = xs.eraseDups.filter p := by
  induction xs using List.reverseRecOn with
  | nil => rfl
  | append_singleton xs x ih =>
    rw [List.filter_append, eraseDups_concat]
    by_cases hx : p x = true
    · rw [List.filter_cons_of_pos hx, List.filter_nil, eraseDups_concat, ih]
      by_cases hmem : x ∈ xs <;> simp [hx, hmem]
    · rw [List.filter_cons_of_neg hx, List.filter_nil, List.append_nil, ih]
      by_cases hmem : x ∈ xs <;> simp [hx, hmem]

namespace Flow

/-- What a pass over steps keeps: each step whose name it has not seen before. -/
def unseen : List String → List Step → List Step
  | _, [] => []
  | seen, s :: rest => if s.name ∈ seen then unseen seen rest else s :: unseen (s.name :: seen) rest

theorem unseen_eq_filter : ∀ (seen : List String) (steps : List Step),
    unseen seen steps = (firstOfEachName steps).filter fun s => s.name ∉ seen
  | _, [] => rfl
  | seen, s :: rest => by
    rw [unseen, firstOfEachName]
    by_cases hseen : s.name ∈ seen
    · rw [if_pos hseen, unseen_eq_filter seen rest, List.filter_cons_of_neg (by simpa using hseen), List.filter_filter]
      -- what has not been seen has another name than `s`
      refine List.filter_congr fun t _ => ?_
      by_cases ht : t.name ∈ seen
      · simp [ht]
      · have hne : t.name ≠ s.name := fun heq => ht (heq ▸ hseen)
        simp [ht, hne]
    · rw [if_neg hseen, unseen_eq_filter (s.name :: seen) rest, List.filter_cons_of_pos (by simpa using hseen),
        List.filter_filter]
      refine congrArg (s :: ·) (List.filter_congr fun t _ => ?_)
      by_cases ht : t.name = s.name <;> simp [ht]

/-- **One pass that remembers the names keeps the first step of each.** -/
theorem firstOfEachName_eq_unseen (steps : List Step) : firstOfEachName steps = unseen [] steps := by
  rw [unseen_eq_filter]
  simp

theorem map_name_firstOfEachName : ∀ steps : List Step,
    (firstOfEachName steps).map Step.name = (steps.map Step.name).eraseDups
  | [] => rfl
  | s :: rest => by
    have ih := map_name_firstOfEachName rest
    have hfilter : ((firstOfEachName rest).filter (·.name != s.name)).map Step.name =
        ((firstOfEachName rest).map Step.name).filter (· != s.name) := by
      rw [List.filter_map]
      rfl
    rw [firstOfEachName, List.map_cons, hfilter, ih, List.map_cons, List.eraseDups_cons, eraseDups_filter]
    rfl

theorem find?_of_mem_firstOfEachName {s : Step} : ∀ {steps : List Step}, s ∈ firstOfEachName steps →
    steps.find? (·.name == s.name) = some s
  | [], h => nomatch h
  | first :: rest, h => by
    rw [firstOfEachName, List.mem_cons, List.mem_filter] at h
    rcases h with rfl | ⟨hmem, hne⟩
    · exact List.find?_cons_of_pos (by simp)
    · have hother : first.name ≠ s.name := Ne.symm (by simpa using hne)
      rw [List.find?_cons_of_neg (by simpa using hother)]
      exact find?_of_mem_firstOfEachName hmem

theorem mem_map_name_distinctSteps {flow : Flow} {name : String} : name ∈ flow.distinctSteps.map Step.name ↔
    ∃ chain ∈ flow.chains, name ∈ chain.2.map Step.name := by
  rw [distinctSteps, map_name_firstOfEachName, List.mem_eraseDups, List.map_flatMap, List.mem_flatMap]

theorem mem_distinctSteps_of_mem_chainOf {flow : Flow} {kind name : String}
    (h : name ∈ (flow.chainOf kind).map Step.name) : name ∈ flow.distinctSteps.map Step.name := by
  rw [chainOf] at h
  cases hfound : flow.chains.find? (·.1 == kind) with
  | none => simp [hfound] at h
  | some chain =>
    rw [hfound] at h
    exact mem_map_name_distinctSteps.2 ⟨chain, List.mem_of_find?_eq_some hfound, h⟩

end Flow

namespace Compiler

variable (c : Compiler) (present : Path → Bool)

/-- **What a run leaves at one name if it starts with no configuration**: an entry with nothing but the generated
section if the chain of some block has a step of that name, and otherwise nothing. -/
theorem get?_of_run_nil {page : Page} {result : Config} (hrun : (c.run present [page] .nil).outcome = .ok result)
    (name : String) :
    ((result.get? name).isSome ↔ ∃ block ∈ page.blocks, name ∈ (c.flow.chainOf block.kind).map Step.name) ∧
    ∀ v, result.get? name = some v → ∃ generated, v = .object (.ofList [(sectionKey, .object generated)]) := by
  obtain ⟨resolved, -, rfl⟩ := c.exists_resolved_of_run present hrun
  have htouched := c.exists_touches_iff [page] name
  simp only [List.mem_singleton, exists_eq_left, ← List.mem_map] at htouched
  rw [get?_withGenerated, get?_generateJobs, ← htouched]
  by_cases h : ∃ job ∈ jobsOf [page], c.Touches name job
  · rw [if_pos h]
    refine ⟨iff_of_true rfl h, fun v hv => ⟨_, (Option.some.inj hv).symm⟩⟩
  · rw [if_neg h]
    exact ⟨iff_of_false (by simp) h, fun v hv => nomatch hv⟩

/-- **What a flow can write and what a run writes.**  The steps of a flow are what one pass over its chains keeps that
takes each name once: their names are different, they are the names that occur in the chains, in the order in which they
first occur, and each step is the first of its name.  A run over one page that succeeds with no configuration to start
from has an entry for each step of a chain that a block has, and for nothing else, and in it the generated section
alone. -/
theorem steps_inventory (c : Compiler) :
    c.flow.distinctSteps = Flow.unseen [] (c.flow.chains.flatMap (·.2)) ∧
    (c.flow.distinctSteps.map Step.name).Nodup ∧
    (∀ name, name ∈ c.flow.distinctSteps.map Step.name ↔ ∃ chain ∈ c.flow.chains, name ∈ chain.2.map Step.name) ∧
    c.flow.distinctSteps.map Step.name = ((c.flow.chains.flatMap (·.2)).map Step.name).eraseDups ∧
    (∀ s ∈ c.flow.distinctSteps, (c.flow.chains.flatMap (·.2)).find? (·.name == s.name) = some s) ∧
    ∀ present page result, (c.run present [page] .nil).outcome = .ok result →
      (∀ name, name ∈ result.keys ↔ ∃ block ∈ page.blocks, name ∈ (c.steps (some block.kind)).map Step.name) ∧
      (∀ name ∈ result.keys, name ∈ (c.steps none).map Step.name) ∧
      ∀ name v, result.get? name = some v → ∃ generated, v = .object (.ofList [(sectionKey, .object generated)]) := by
  have hnames := Flow.map_name_firstOfEachName (c.flow.chains.flatMap (·.2))
  refine ⟨Flow.firstOfEachName_eq_unseen _, hnames ▸ nodup_eraseDups _, fun name => Flow.mem_map_name_distinctSteps,
    hnames, fun s hs => Flow.find?_of_mem_firstOfEachName hs, fun present page result hrun => ?_⟩
  have hkeys : ∀ name, name ∈ result.keys ↔
      ∃ block ∈ page.blocks, name ∈ (c.steps (some block.kind)).map Step.name := fun name => by
    rw [Members.mem_keys]
    exact (c.get?_of_run_nil present hrun name).1
  refine ⟨hkeys, fun name hname => ?_, fun name => (c.get?_of_run_nil present hrun name).2⟩
  obtain ⟨block, -, hstep⟩ := (hkeys name).1 hname
  exact Flow.mem_distinctSteps_of_mem_chainOf hstep

/-- A step that asks for nothing, before another of its name, and a chain that has a step twice. -/
def namesakes : Compiler :=
  { ofChain "js" [] with
    flow := ⟨[("js", [⟨"mark", .perSource, .custom fun _ => .null⟩, .concat, .concat]),
      ("css", [.cssmin, .standard "mark" .merged])], []⟩ }

/-- The step that asks for nothing has an entry too; the block of a type without a chain adds none. -/
theorem steps_inventory_namesakes :
    (∃ result, (namesakes.run (fun _ => false) [⟨⟨"index.html"⟩, ⟨"."⟩,
        [⟨"js", "site.js", ["a.js"]⟩, ⟨"html", "page.html", ["b.html"]⟩]⟩] .nil).outcome = .ok result ∧
      (∀ name, name ∈ result.keys ↔ name = "mark" ∨ name = "concat") ∧
      ∃ generated, result.get? "mark" = some (.object (.ofList [(sectionKey, .object generated)]))) ∧
    namesakes.flow.distinctSteps.map Step.name = ["mark", "concat", "cssmin"] ∧
    ∀ s ∈ namesakes.flow.distinctSteps, s.name = "mark" → s.mode = .perSource := by
  obtain ⟨-, -, -, hnames, hfirst, hwritten⟩ := namesakes.steps_inventory
  obtain ⟨result, hrun⟩ : ∃ result, (namesakes.run (fun _ => false) [⟨⟨"index.html"⟩, ⟨"."⟩,
      [⟨"js", "site.js", ["a.js"]⟩, ⟨"html", "page.html", ["b.html"]⟩]⟩] .nil).outcome = .ok result := ⟨_, rfl⟩
  obtain ⟨hkeys, -, hentries⟩ := hwritten _ _ _ hrun
  have hscripts : (namesakes.steps (some "js")).map Step.name = ["mark", "concat", "concat"] := by decide +kernel
  have hpages : (namesakes.steps (some "html")).map Step.name = [] := by decide +kernel
  have htwo : ∀ name, name ∈ result.keys ↔ name = "mark" ∨ name = "concat" := fun name => by
    simp only [hkeys, List.mem_cons, List.not_mem_nil, or_false, exists_eq_or_imp, exists_eq_left, hscripts, hpages,
      or_self]
  refine ⟨⟨result, hrun, htwo, ?_⟩, hnames.trans (by decide +kernel), fun s hs hname => ?_⟩
  · obtain ⟨v, hv⟩ := Option.isSome_iff_exists.1 (Members.mem_keys.1 ((htwo "mark").2 (.inl rfl)))
    obtain ⟨generated, rfl⟩ := hentries _ _ hv
    exact ⟨generated, hv⟩
  · have := hfirst s hs
    rw [hname] at this
    obtain rfl := Option.some.inj this
    rfl

end Compiler
end StepChain
