import Mathlib.Data.Finset.Card
import Mathlib.Data.List.Nodup
import StepChain.Proofs.Wiring.Linear
/-!
# Sources that share a file name

A step that works per source keeps of an input nothing but its file name, so its outputs are as different as the file
names of its inputs (`Output.nodup_map_stagedFor`) and two sources of one file name are staged in one place.  Once a step
has merged, a single input is left and nothing can meet any more (`Compiler.positions_outputs_nodup_iff`).
-/
namespace StepChain

/-- Lists that are images of each other are equally different. -/
theorem nodup_iff_of_maps {α β : Type} [DecidableEq α] [DecidableEq β] {xs : List α} {ys : List β} {f : α → β}
    {g : β → α} (hys : ys = xs.map f) (hxs : xs = ys.map g) :
    (ys.Nodup ↔ xs.Nodup) ∧ ys.toFinset.card = xs.toFinset.card := by
  have himage : ys.toFinset = xs.toFinset.image f := by
    ext y
    simp [hys]
  have hpreimage : xs.toFinset = ys.toFinset.image g := by
    ext x
    conv_lhs => rw [hxs]
    simp
  refine ⟨⟨fun h => ?_, fun h => ?_⟩, Nat.le_antisymm ?_ ?_⟩
  · rw [hys] at h
    exact h.of_map
  · rw [hxs] at h
    exact h.of_map
  · rw [himage]
    exact Finset.card_image_le
  · rw [hpreimage]
    exact Finset.card_image_le

namespace Output

variable (staging : Path) (step : String) {sources : List String}

theorem map_stagedFor_eq (h : ∀ s ∈ sources, (Path.fileName? ⟨s⟩).isSome) :
    sources.map (stagedFor staging step) = (fileNames sources).map fun file => inStep staging step (file.getD "") := by
  unfold fileNames
  rw [List.map_map]
  refine List.map_congr_left fun s hs => ?_
  obtain ⟨file, hfile⟩ := Option.isSome_iff_exists.1 (h s hs)
  rw [stagedFor_eq staging step hfile, Function.comp_apply, hfile, Option.getD_some]

/-- **Outputs made one for each source are as different as the sources' file names.** -/
theorem nodup_map_stagedFor (h : ∀ s ∈ sources, (Path.fileName? ⟨s⟩).isSome) :
    ((sources.map (stagedFor staging step)).Nodup ↔ (fileNames sources).Nodup) ∧
      (sources.map (stagedFor staging step)).toFinset.card = (fileNames sources).toFinset.card :=
  nodup_iff_of_maps (map_stagedFor_eq staging step h) (fileNames_map_stagedFor staging step h).symm

end Output

namespace Targets

variable (t : Targets) (blockDest : String) {chain : List Step} {sources : List String}

theorem outputs_of_getElem?_wire {i : Nat} {p next : Position}
    (hp : (t.wire blockDest chain sources)[i]? = some p)
    (hnext : (t.wire blockDest chain sources)[i + 1]? = some next) :
    chain[i]? = some p.step ∧ p.outputs = t.thread blockDest (chain.take (i + 1)) sources := by
  rw [getElem?_wire, Option.map_eq_some_iff] at hp hnext
  obtain ⟨step, hstep, rfl⟩ := hp
  obtain ⟨after, hafter, -⟩ := hnext
  have hlast : i + 1 < chain.length := (List.getElem?_eq_some_iff.1 hafter).1
  refine ⟨hstep, ?_⟩
  rw [take_succ_of_getElem? hstep, thread_concat, Position.outputs, if_neg (by omega)]
  rfl

theorem exists_handOn_singleton (step : Step) (x : String) : ∃ y, t.handOn blockDest [x] step = [y] := by
  cases hmode : step.mode with
  | merged => exact ⟨_, t.handOn_merged blockDest hmode [x]⟩
  | perSource => exact ⟨_, t.handOn_perSource blockDest hmode [x]⟩

theorem exists_thread_singleton : ∀ (steps : List Step) (x : String), ∃ y, t.thread blockDest steps [x] = [y]
  | [], x => ⟨x, rfl⟩
  | step :: steps, x => by
    obtain ⟨y, hy⟩ := t.exists_handOn_singleton blockDest step x
    rw [thread, List.foldl_cons, hy]
    exact exists_thread_singleton steps y

theorem exists_thread_of_not_perSource (sources : List String) {i : Nat} (h : ¬ PerSourceFrom chain 0 i) :
    ∃ y, t.thread blockDest (chain.take i) sources = [y] := by
  unfold PerSourceFrom at h
  push Not at h
  obtain ⟨m, merger, -, hmi, hmerger, hmode⟩ := h
  have hmerged : merger.mode = .merged := by
    cases hm : merger.mode with
    | merged => rfl
    | perSource => exact absurd hm hmode
  rw [t.thread_take_of_merged blockDest hmi hmerger hmerged]
  exact t.exists_thread_singleton blockDest _ _

end Targets

theorem PerSourceFrom.succ {chain : List Step} {a i : Nat} (h : PerSourceFrom chain a i) {step : Step}
    (hstep : chain[i]? = some step) (hmode : step.mode = .perSource) : PerSourceFrom chain a (i + 1) := by
  intro j other hj hlt hother
  rcases Nat.lt_succ_iff_lt_or_eq.1 hlt with hlt | rfl
  · exact h j other hj hlt hother
  · obtain rfl := Option.some.inj (hstep.symm.trans hother)
    exact hmode

namespace Compiler

/-- **When a step that works per source keeps its inputs apart.**  It makes one output for each input, and the next step
is given these.  Where an earlier step has merged there is but one; otherwise there are as many different outputs as
different file names among the sources, so no output is made twice exactly if no file name stands twice. -/
theorem positions_outputs_nodup_iff (c : Compiler) (block : Block) {sources : List String}
    (hnamed : ∀ s ∈ sources, (Path.fileName? ⟨s⟩).isSome) {i : Nat} {p next : Position}
    (hp : (c.positions block sources)[i]? = some p) (hnext : (c.positions block sources)[i + 1]? = some next)
    (hmode : p.step.mode = .perSource) :
    p.outputs.length = p.inputs.length ∧ next.inputs = p.outputs ∧
    (PerSourceFrom (c.flow.chainOf block.kind) 0 i →
      p.outputs.toFinset.card = (fileNames sources).toFinset.card) ∧
    (p.outputs.Nodup ↔ ¬ PerSourceFrom (c.flow.chainOf block.kind) 0 i ∨ (fileNames sources).Nodup) := by
  unfold positions at hp hnext
  generalize c.flow.chainOf block.kind = chain at hp hnext ⊢
  obtain ⟨hstep, houtputs⟩ := c.targets.outputs_of_getElem?_wire block.dest hp hnext
  have hthread := houtputs
  rw [take_succ_of_getElem? hstep, c.targets.thread_concat, c.targets.handOn_perSource block.dest hmode] at hthread
  -- while no step has merged, every source is moved on its own
  have hmoved : PerSourceFrom chain 0 i → p.outputs = sources.map (Output.stagedFor c.targets.staging p.step.name) :=
    fun hbefore => by
      rw [houtputs, c.targets.thread_of_perSource block.dest hstep (hbefore.succ hstep hmode) hnamed]
  refine ⟨?_, ?_, fun hbefore => ?_, ?_⟩
  · rw [hthread, List.length_map, c.targets.inputs_of_getElem?_wire block.dest hp]
  · rw [c.targets.inputs_of_getElem?_wire block.dest hnext, houtputs]
  · rw [hmoved hbefore]
    exact (Output.nodup_map_stagedFor c.targets.staging p.step.name hnamed).2
  · -- once a step has merged, a single output cannot stand twice
    by_cases hbefore : PerSourceFrom chain 0 i
    · rw [hmoved hbefore, (Output.nodup_map_stagedFor c.targets.staging p.step.name hnamed).1]
      simp [hbefore]
    · obtain ⟨y, hy⟩ := c.targets.exists_thread_of_not_perSource block.dest sources hbefore
      rw [hthread, hy]
      simp [hbefore]

/-- Of three sources two share a name, so the first step makes two outputs and one of them twice.  After `concat` there
is one input left, and `uglify` makes no output twice. -/
theorem outputs_nodup_mixed :
    (∀ s ∈ ["app/a/x.js", "app/b/x.js", "app/y.js"], (Path.fileName? ⟨s⟩).isSome) ∧
    (∃ p, (mixed.positions ⟨"js", "site.js", []⟩ ["app/a/x.js", "app/b/x.js", "app/y.js"])[0]? = some p ∧
      p.outputs.length = 3 ∧ p.outputs.toFinset.card = 2 ∧ ¬ p.outputs.Nodup) ∧
    ∃ p, (mixed.positions ⟨"js", "site.js", []⟩ ["app/a/x.js", "app/b/x.js", "app/y.js"])[2]? = some p ∧
      p.outputs.Nodup := by
  have hnamed : ∀ s ∈ ["app/a/x.js", "app/b/x.js", "app/y.js"], (Path.fileName? ⟨s⟩).isSome := by decide +kernel
  obtain ⟨hlength, -, hcard, hshared⟩ :=
    mixed.positions_outputs_nodup_iff ⟨"js", "site.js", []⟩ hnamed (i := 0) rfl rfl rfl
  obtain ⟨-, -, -, hmerged⟩ := mixed.positions_outputs_nodup_iff ⟨"js", "site.js", []⟩ hnamed (i := 2) rfl rfl rfl
  have hfirst : PerSourceFrom (mixed.flow.chainOf "js") 0 0 := fun j _ _ hj => absurd hj (Nat.not_lt_zero j)
  refine ⟨hnamed, ⟨_, rfl, hlength, ?_, ?_⟩, _, rfl, hmerged.2 (.inl fun hbefore => ?_)⟩
  · rw [hcard hfirst]
    decide +kernel
  · rw [hshared, not_or, not_not]
    exact ⟨hfirst, by decide +kernel⟩
  · have := hbefore 1 .concat (Nat.zero_le 1) (by decide) rfl
    cases this

/-- **Two sources of one file name are staged in one place**, so a step that works per source may lose one of them. -/
theorem exists_outputs_not_nodup :
    ¬ ∀ (c : Compiler) (present : Path → Bool) (job : Job) (sources : List String) (i : Nat) (p next : Position),
      c.search.sources present job = .ok sources → sources.Nodup →
      (c.positions job.block sources)[i]? = some p → (c.positions job.block sources)[i + 1]? = some next →
      p.step.mode = .perSource → p.outputs.Nodup := by
  intro h
  have hnodup := h (.ofChain "js" [.uglify, .concat]) (fun _ => true)
    ⟨⟨⟨"index.html"⟩, ⟨"."⟩, []⟩, ⟨"js", "site.js", ["a/x.js", "b/x.js"]⟩⟩ ["app/a/x.js", "app/b/x.js"] 0 _ _ rfl
    (by decide) rfl rfl rfl
  exact absurd hnodup (by decide +kernel)

end Compiler

end StepChain
