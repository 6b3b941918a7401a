import StepChain.Compile.Basic
import StepChain.Proofs.Output
/-!
# The wiring of a chain in closed form

What a position gets is what the chain before it hands on (`getElem?_wire`, `thread`).  A step that merges hands on one
output whatever it got; steps that work per source only move their inputs into their own directories, and the last of
them decides which (`thread_perSource`).  So the inputs of a position depend on the last step before it that merges and
on the step right before it (`positions_closedForm`).
-/
namespace StepChain

/-- What a position is given to read, over all its mappings. -/
def Position.inputs (p : Position) : List String := p.mappings.flatMap Mapping.src

namespace Targets

variable (t : Targets) (blockDest : String)

def handOn (inputs : List String) (step : Step) : List String := (t.staged step blockDest inputs).map Mapping.dest

/-- What steps that are followed by others hand on, one after another. -/
def thread (steps : List Step) (inputs : List String) : List String := steps.foldl (t.handOn blockDest) inputs

theorem handOn_merged {step : Step} (h : step.mode = .merged) (inputs : List String) :
    t.handOn blockDest inputs step = [Output.staged t.staging step.name blockDest] := by
  simp only [handOn, staged, h, List.map_cons, List.map_nil]

theorem handOn_perSource {step : Step} (h : step.mode = .perSource) (inputs : List String) :
    t.handOn blockDest inputs step = inputs.map (Output.stagedFor t.staging step.name) := by
  simp only [handOn, staged, h, List.map_map, Function.comp_def]

theorem thread_concat (steps : List Step) (step : Step) (inputs : List String) :
    t.thread blockDest (steps ++ [step]) inputs = t.handOn blockDest (t.thread blockDest steps inputs) step := by
  rw [thread, List.foldl_append]
  rfl

theorem thread_append (before after : List Step) (inputs : List String) :
    t.thread blockDest (before ++ after) inputs = t.thread blockDest after (t.thread blockDest before inputs) := by
  rw [thread, List.foldl_append]
  rfl

/-- A mapping of a position that is not the last reads what the position is given, each input once. -/
theorem inputs_staged (step : Step) (inputs : List String) :
    (t.staged step blockDest inputs).flatMap Mapping.src = inputs := by
  unfold staged
  cases step.mode with
  | merged => simp
  | perSource => simp [List.flatMap_map]

/-- **A position of a chain**: its step, and mappings of what the steps before it hand on. -/
theorem getElem?_wire : ∀ (chain : List Step) (inputs : List String) (i : Nat),
    (t.wire blockDest chain inputs)[i]? = chain[i]?.map fun step =>
      ⟨step, if i + 1 = chain.length then [⟨t.thread blockDest (chain.take i) inputs, Output.final t.dest blockDest⟩]
        else t.staged step blockDest (t.thread blockDest (chain.take i) inputs)⟩
  | [], inputs, i => by simp [wire]
  | [step], inputs, 0 => by simp [wire, thread]
  | [step], inputs, i + 1 => by simp [wire]
  | step :: next :: rest, inputs, 0 => by simp [wire, thread]
  | step :: next :: rest, inputs, i + 1 => by
    rw [wire, List.getElem?_cons_succ, getElem?_wire (next :: rest), List.getElem?_cons_succ]
    simp only [List.length_cons, List.take_succ_cons, Nat.add_right_cancel_iff]
    rfl

theorem map_step_wire : ∀ (chain : List Step) (inputs : List String),
    (t.wire blockDest chain inputs).map Position.step = chain
  | [], _ => rfl
  | [_], _ => rfl
  | step :: next :: rest, inputs => by
    rw [wire, List.map_cons, map_step_wire (next :: rest)]

theorem inputs_of_getElem?_wire {chain : List Step} {inputs : List String} {i : Nat} {p : Position}
    (h : (t.wire blockDest chain inputs)[i]? = some p) : p.inputs = t.thread blockDest (chain.take i) inputs := by
  rw [getElem?_wire, Option.map_eq_some_iff] at h
  obtain ⟨step, -, rfl⟩ := h
  unfold Position.inputs
  dsimp only
  split
  · simp
  · exact t.inputs_staged blockDest step _

/-- **Steps that work per source only move their inputs**, and the last of them decides where. -/
theorem thread_perSource {last : Step} (hlast : last.mode = .perSource) : ∀ (steps : List Step) (inputs : List String),
    (∀ step ∈ steps, step.mode = .perSource) → (∀ x ∈ inputs, (Path.fileName? ⟨x⟩).isSome) →
    t.thread blockDest (steps ++ [last]) inputs = inputs.map (Output.stagedFor t.staging last.name)
  | [], inputs, _, _ => t.handOn_perSource blockDest hlast inputs
  | step :: steps, inputs, hsteps, hinputs => by
    have hstep := hsteps step List.mem_cons_self
    have hnames : ∀ x ∈ inputs.map (Output.stagedFor t.staging step.name), (Path.fileName? ⟨x⟩).isSome := by
      intro x hx
      obtain ⟨source, hsource, rfl⟩ := List.mem_map.1 hx
      rw [Output.fileName?_stagedFor t.staging step.name (hinputs source hsource)]
      exact hinputs source hsource
    have ih := thread_perSource hlast steps _ (fun s hs => hsteps s (List.mem_cons_of_mem _ hs)) hnames
    rw [List.cons_append, thread, List.foldl_cons, t.handOn_perSource blockDest hstep]
    rw [thread] at ih
    rw [ih, List.map_map]
    exact List.map_congr_left fun source hsource =>
      Output.stagedFor_stagedFor t.staging last.name step.name (hinputs source hsource)

end Targets

/-! ### By position -/

/-- From position `a` up to `b`, without it, every step works per source. -/
def PerSourceFrom (chain : List Step) (a b : Nat) : Prop :=
  ∀ j step, a ≤ j → j < b → chain[j]? = some step → step.mode = .perSource

theorem PerSourceFrom.mode_of_mem {chain : List Step} {a b : Nat} (h : PerSourceFrom chain a b) {step : Step}
    (hmem : step ∈ (chain.take b).drop a) : step.mode = .perSource := by
  obtain ⟨k, hk⟩ := List.mem_iff_getElem?.1 hmem
  rw [List.getElem?_drop, List.getElem?_take] at hk
  split at hk
  · rename_i hlt
    exact h (a + k) step (Nat.le_add_right a k) hlt hk
  · cases hk

theorem take_succ_of_getElem? {chain : List Step} {i : Nat} {step : Step} (h : chain[i]? = some step) :
    chain.take (i + 1) = chain.take i ++ [step] := by
  rw [List.take_add_one, h]
  rfl

namespace Targets

variable (t : Targets) (blockDest : String) {chain : List Step} {sources : List String}

/-- Before any step merges, a position gets every source where the step before it moves it. -/
theorem thread_of_perSource {i : Nat} {before : Step} (hbefore : chain[i]? = some before)
    (hmode : PerSourceFrom chain 0 (i + 1)) (hnames : ∀ s ∈ sources, (Path.fileName? ⟨s⟩).isSome) :
    t.thread blockDest (chain.take (i + 1)) sources = sources.map (Output.stagedFor t.staging before.name) := by
  rw [take_succ_of_getElem? hbefore]
  refine t.thread_perSource blockDest (hmode i before (Nat.zero_le i) (Nat.lt_succ_self i) hbefore) _ _ ?_ hnames
  intro step hstep
  apply hmode.mode_of_mem
  rw [take_succ_of_getElem? hbefore, List.drop_zero]
  exact List.mem_append_left _ hstep

theorem thread_of_merged {i : Nat} {before : Step} (hbefore : chain[i]? = some before)
    (hmode : before.mode = .merged) :
    t.thread blockDest (chain.take (i + 1)) sources = [Output.staged t.staging before.name blockDest] := by
  rw [take_succ_of_getElem? hbefore, thread_concat, t.handOn_merged blockDest hmode]

/-- What came before a step that merges does not matter, since that step hands on one output of its own. -/
theorem thread_take_of_merged {m i : Nat} {merger : Step} (hmi : m < i) (hmerger : chain[m]? = some merger)
    (hmerged : merger.mode = .merged) :
    t.thread blockDest (chain.take i) sources =
      t.thread blockDest ((chain.take i).drop (m + 1)) [Output.staged t.staging merger.name blockDest] := by
  have hsplit : chain.take i = chain.take (m + 1) ++ (chain.take i).drop (m + 1) := by
    have h := List.take_append_drop (m + 1) (chain.take i)
    rw [List.take_take, Nat.min_eq_left hmi] at h
    exact h.symm
  rw [hsplit, thread_append, t.thread_of_merged blockDest hmerger hmerged, ← hsplit]

/-- Later on, the only input is what the last step that merges made, where the step before the position moves it. -/
theorem thread_after_merged {m i : Nat} {merger before : Step} (hmi : m < i) (hmerger : chain[m]? = some merger)
    (hmerged : merger.mode = .merged) (hbefore : chain[i]? = some before)
    (hmode : PerSourceFrom chain (m + 1) (i + 1)) {file : String}
    (hfile : Path.fileName? ⟨Output.staged t.staging merger.name blockDest⟩ = some file) :
    t.thread blockDest (chain.take (i + 1)) sources = [Output.inStep t.staging before.name file] := by
  have hlast : before.mode = .perSource := hmode i before hmi (Nat.lt_succ_self i) hbefore
  rw [take_succ_of_getElem? hbefore, thread_concat, t.thread_take_of_merged blockDest hmi hmerger hmerged,
    ← thread_concat, t.thread_perSource blockDest hlast]
  · rw [List.map_cons, List.map_nil, Output.stagedFor_eq t.staging before.name hfile]
  · intro step hstep
    apply hmode.mode_of_mem
    rw [take_succ_of_getElem? hbefore, List.drop_append]
    exact List.mem_append_left _ hstep
  · intro x hx
    rw [List.mem_singleton.1 hx, hfile]
    rfl

end Targets

/-- A compiler of one chain, from `app` to `dist` by way of `.tmp`. -/
def Compiler.ofChain (kind : String) (chain : List Step) : Compiler :=
  ⟨⟨[(kind, chain)], []⟩, ⟨⟨"dist"⟩, ⟨".tmp"⟩⟩, ⟨[⟨"app"⟩], false, none⟩⟩

def Page.ofSources (kind dest : String) (sources : List String) : Page :=
  ⟨⟨"index.html"⟩, ⟨"."⟩, [⟨kind, dest, sources⟩]⟩

/-- A chain in which a step merges between steps that work per source. -/
def Compiler.mixed : Compiler := .ofChain "js" [.uglify, .concat, .uglify, .cssmin, .concat]

/-- **The wiring of a chain in closed form.**  The first position gets the sources.  A later one gets what the step
before it hands on: while no step has merged, every source in that step's directory; right after a step that merges,
its one output; later, that output's file in the directory of the step before.  The last position makes the block's
final output, whatever its mode. -/
theorem Compiler.positions_closedForm (c : Compiler) (block : Block) (sources : List String) {chain : List Step}
    (hchain : c.flow.chainOf block.kind = chain) (hne : chain ≠ [])
    (hnames : ∀ s ∈ sources, (Path.fileName? ⟨s⟩).isSome) :
    (c.positions block sources).map Position.step = chain ∧
    (∃ first, (c.positions block sources)[0]? = some first ∧ first.inputs = sources) ∧
    (∀ i before p, chain[i]? = some before → (c.positions block sources)[i + 1]? = some p →
      (PerSourceFrom chain 0 (i + 1) →
        p.inputs = sources.map (Output.stagedFor c.targets.staging before.name) ∧
        ∀ s ∈ sources, ∀ file, Path.fileName? ⟨s⟩ = some file →
          Output.stagedFor c.targets.staging before.name s = Output.inStep c.targets.staging before.name file) ∧
      (before.mode = .merged → p.inputs = [Output.staged c.targets.staging before.name block.dest]) ∧
      (∀ m merger file, m < i → chain[m]? = some merger → merger.mode = .merged → PerSourceFrom chain (m + 1) (i + 1) →
        Path.fileName? ⟨Output.staged c.targets.staging merger.name block.dest⟩ = some file →
        p.inputs = [Output.inStep c.targets.staging before.name file])) ∧
    (∃ last src, (c.positions block sources).getLast? = some last ∧
      last.mappings = [⟨src, Output.final c.targets.dest block.dest⟩]) := by
  have hpos : c.positions block sources = c.targets.wire block.dest chain sources := by rw [Compiler.positions, hchain]
  have hlen : 0 < chain.length := List.length_pos_iff.2 hne
  rw [hpos]
  refine ⟨c.targets.map_step_wire block.dest chain sources, ?_, ?_, ?_⟩
  · have hfirst := c.targets.getElem?_wire block.dest chain sources 0
    rw [List.getElem?_eq_getElem hlen, Option.map_some] at hfirst
    exact ⟨_, hfirst, c.targets.inputs_of_getElem?_wire block.dest hfirst⟩
  · intro i before p hbefore hp
    rw [c.targets.inputs_of_getElem?_wire block.dest hp]
    refine ⟨fun hmode => ⟨c.targets.thread_of_perSource block.dest hbefore hmode hnames, ?_⟩, ?_, ?_⟩
    · exact fun s _ file hfile => Output.stagedFor_eq c.targets.staging before.name hfile
    · exact fun hmode => c.targets.thread_of_merged block.dest hbefore hmode
    · exact fun m merger file hmi hmerger hmerged hmode hfile =>
        c.targets.thread_after_merged block.dest hmi hmerger hmerged hbefore hmode hfile
  · have hlt : chain.length - 1 < chain.length := by omega
    have hlast := c.targets.getElem?_wire block.dest chain sources (chain.length - 1)
    rw [List.getElem?_eq_getElem hlt, Option.map_some, if_pos (by omega)] at hlast
    have hwire : (c.targets.wire block.dest chain sources).length = chain.length := by
      rw [← List.length_map Position.step, c.targets.map_step_wire]
    rw [List.getLast?_eq_getElem?, hwire, hlast]
    exact ⟨_, _, rfl, rfl⟩

/-- The second position gets both sources, the third what `concat` made of them and the last that file, moved twice. -/
theorem Compiler.inputs_mixed :
    (∃ p, (mixed.positions ⟨"js", "site.js", []⟩ ["app/a.js", "app/b.js"])[1]? = some p ∧
      p.inputs = [".tmp/uglify/a.js", ".tmp/uglify/b.js"]) ∧
    (∃ p, (mixed.positions ⟨"js", "site.js", []⟩ ["app/a.js", "app/b.js"])[2]? = some p ∧
      p.inputs = [".tmp/concat/site.js"]) ∧
    (∃ p, (mixed.positions ⟨"js", "site.js", []⟩ ["app/a.js", "app/b.js"])[4]? = some p ∧
      p.inputs = [".tmp/cssmin/site.js"]) ∧
    ∃ last src, (mixed.positions ⟨"js", "site.js", []⟩ ["app/a.js", "app/b.js"]).getLast? = some last ∧
      last.mappings = [⟨src, "dist/site.js"⟩] := by
  obtain ⟨-, -, hinputs, last, src, hlast, hmappings⟩ := mixed.positions_closedForm ⟨"js", "site.js", []⟩
    ["app/a.js", "app/b.js"] (rfl : _ = [Step.uglify, .concat, .uglify, .cssmin, .concat]) (by decide)
    (by decide +kernel)
  have hsome : ∀ i < 5, ∃ p, (mixed.positions ⟨"js", "site.js", []⟩ ["app/a.js", "app/b.js"])[i]? = some p := by
    intro i hi
    exact ⟨_, List.getElem?_eq_getElem (Nat.lt_of_lt_of_eq hi (by decide +kernel))⟩
  refine ⟨?_, ?_, ?_, last, src, hlast, ?_⟩
  · obtain ⟨p, hp⟩ := hsome 1 (by decide)
    refine ⟨p, hp, ((hinputs 0 .uglify p rfl hp).1 ?_).1.trans (by decide +kernel)⟩
    intro j step _ hj hstep
    obtain rfl : j = 0 := by omega
    cases hstep
    rfl
  · obtain ⟨p, hp⟩ := hsome 2 (by decide)
    exact ⟨p, hp, ((hinputs 1 .concat p rfl hp).2.1 rfl).trans (by decide +kernel)⟩
  · obtain ⟨p, hp⟩ := hsome 4 (by decide)
    have hmode : PerSourceFrom [.uglify, .concat, .uglify, .cssmin, .concat] 2 4 := by
      intro j step hlow hj hstep
      obtain rfl | rfl : j = 2 ∨ j = 3 := by omega
      all_goals
        cases hstep
        rfl
    have hmoved := (hinputs 3 .cssmin p rfl hp).2.2 1 .concat "site.js" (by decide) rfl rfl hmode (by decide +kernel)
    exact ⟨p, hp, hmoved.trans (by decide +kernel)⟩
  · rw [hmappings, show Output.final mixed.targets.dest "site.js" = "dist/site.js" by decide +kernel]

end StepChain
