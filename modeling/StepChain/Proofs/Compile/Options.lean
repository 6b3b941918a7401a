import StepChain.Proofs.Compile.FileLists
import StepChain.Proofs.Compile.Frame
import StepChain.Proofs.Json.Replay
/-!
# Options of standard flows

Post-processors lay their options over those of the section once for each position of their step and each block.  Laid
again in the same order they change nothing (`layeredAt_twice`), so once any block of their type has been compiled the
options are those laid once (`HasOptions`), however many blocks follow (`options_of_update`).
-/
namespace StepChain

open Json (Object Members layeredAt layeredAt_twice)

/-- What a post-processor lays over the options of its step, if anything. -/
def Post.values? (post : Post) : Option Json :=
  match post.action with
  | .options .null => none
  | .options values => some values
  | .custom _ => none

/-- All that is laid over the options of a step, in order of declaration. -/
def Flow.valuesFor (flow : Flow) (step : String) : List Json :=
  (flow.followers.filter (·.step == step)).filterMap (·.post.values?)

theorem optionsWith_eq (current : Option Json) (values : Json) :
    optionsWith current values = Json.overlayAt current values := by
  unfold optionsWith
  split
  · rfl
  · exact (Json.overlay_null values).symm
  · rfl

theorem Post.get?_apply_options {post : Post} {values : Json} (h : post.action = .options values) (block : Block)
    (current : Object) : (post.apply current block).get? optionsKey =
      match post.values? with
      | some v => some (Json.overlayAt (current.get? optionsKey) v)
      | none => current.get? optionsKey := by
  unfold Post.apply Post.values?
  rw [h]
  cases values with
  | null => rfl
  | _ => simp only [Members.get?_insert, if_true, optionsWith_eq]

theorem get?_applyPosts_options (block : Block) : ∀ (posts : List Post) (current : Object),
    (∀ post ∈ posts, ∃ values, post.action = .options values) →
    (applyPosts block posts current).get? optionsKey =
      layeredAt (current.get? optionsKey) (posts.filterMap Post.values?)
  | [], _, _ => rfl
  | post :: posts, current, h => by
    obtain ⟨values, hvalues⟩ := h post List.mem_cons_self
    have ih := get?_applyPosts_options block posts (post.apply current block) fun p hp =>
      h p (List.mem_cons_of_mem post hp)
    rw [post.get?_apply_options hvalues] at ih
    rw [List.filterMap_cons]
    cases hv : post.values? with
    | none =>
      rw [hv] at ih
      exact ih
    | some v =>
      rw [hv] at ih
      exact ih

/-- Standard fragments have no options. -/
theorem Position.get?_collect_options {p : Position} (hstep : p.step.isStandard) (current : Object) :
    (p.collect current).get? optionsKey = current.get? optionsKey := by
  have hfragment : ∀ m : Mapping, (Members.ofList [(fileListKey, .array [m.entry])]).get? optionsKey = none :=
    fun _ => rfl
  have hfold : ∀ (ms : List Mapping) (current : Object), (ms.foldl (fun current m =>
      ((p.step.fragment m).object?.map (addFragment current)).getD current) current).get? optionsKey =
        current.get? optionsKey := by
    intro ms
    induction ms with
    | nil => exact fun _ => rfl
    | cons m ms ih =>
      intro current
      rw [List.foldl_cons, ih, Step.fragment_of_isStandard hstep, Mapping.fileList, Json.object?, Option.map_some,
        Option.getD_some, get?_addFragment, hfragment]
  exact hfold p.mappings current

/-- A section with the options of a step, all laid once, or still with none. -/
def HasOptions (values : List Json) (laid : Bool) (current : Object) : Prop :=
  current.get? optionsKey = if laid then layeredAt none values else none

theorem HasOptions.layeredAt_eq {values : List Json} {laid : Bool} {current : Object}
    (h : HasOptions values laid current) : layeredAt (current.get? optionsKey) values = layeredAt none values := by
  unfold HasOptions at h
  rw [h]
  cases laid with
  | false => rfl
  | true => exact layeredAt_twice values none

section

variable {flow : Flow} {kind name : String} (hflow : flow.Standard)
  (honly : ∀ f ∈ flow.followers, f.step = name → f.blockType = kind)

include honly in
theorem Flow.filterMap_postsAfter : (flow.postsAfter kind name).filterMap Post.values? = flow.valuesFor name := by
  have hfilter : flow.followers.filter (fun f => f.blockType == kind && f.step == name) =
      flow.followers.filter (·.step == name) := by
    refine List.filter_congr fun f hf => ?_
    by_cases hname : f.step = name
    · simp [hname, honly f hf hname]
    · simp [hname]
  rw [postsAfter, hfilter, List.filterMap_map]
  rfl

include honly in
theorem Flow.postsAfter_eq_nil {other : String} (h : other ≠ kind) : flow.postsAfter other name = [] := by
  rw [postsAfter, List.map_eq_nil_iff, List.filter_eq_nil_iff]
  intro f hf hboth
  simp only [Bool.and_eq_true, beq_iff_eq] at hboth
  exact h (hboth.1.symm.trans (honly f hf hboth.2))

namespace HasOptions

variable {laid : Bool} {current : Object}

include hflow honly

/-- **One position** lays the options in blocks of their type and leaves them alone in others. -/
theorem sectionAfter (block : Block) {p : Position} (hstep : p.step.isStandard) (hname : p.step.name = name)
    (h : HasOptions (flow.valuesFor name) laid current) :
    HasOptions (flow.valuesFor name) (laid || block.kind == kind) (flow.sectionAfter block p current) := by
  have hcollect := p.get?_collect_options hstep current
  have hposts := get?_applyPosts_options block (flow.postsAfter block.kind name) (p.collect current)
    fun _ hpost => hflow.setsOptions hpost
  rw [hcollect] at hposts
  unfold HasOptions
  rw [Flow.sectionAfter, hname, hposts]
  by_cases hkind : block.kind = kind
  · rw [hkind, Flow.filterMap_postsAfter honly, h.layeredAt_eq]
    simp
  · have hother : (block.kind == kind) = false := beq_eq_false_iff_ne.2 hkind
    rw [Flow.postsAfter_eq_nil honly hkind, hother, Bool.or_false]
    exact h

/-- **One block** does so if it has a position of the step. -/
theorem sectionThrough (block : Block) : ∀ (positions : List Position) {laid : Bool} {current : Object},
    (∀ p ∈ positions, p.step.isStandard) → HasOptions (flow.valuesFor name) laid current →
    HasOptions (flow.valuesFor name) (laid || (block.kind == kind && positions.any (·.step.name == name)))
      (flow.sectionThrough block name positions current)
  | [], laid, _, _, h => by
    rw [List.any_nil, Bool.and_false, Bool.or_false]
    exact h
  | p :: positions, laid, current, hsteps, h => by
    have hrest : ∀ q ∈ positions, q.step.isStandard := fun q hq => hsteps q (List.mem_cons_of_mem p hq)
    by_cases hp : name = p.step.name
    · have hfirst := h.sectionAfter hflow honly block (hsteps p List.mem_cons_self) hp.symm
      have ih := sectionThrough block positions hrest hfirst
      subst hp
      rw [Flow.sectionThrough_cons_self]
      cases laid <;> cases hkind : block.kind == kind <;> simpa [hkind] using ih
    · have ih := sectionThrough block positions hrest h
      have hother : (p.step.name == name) = false := beq_eq_false_iff_ne.2 (Ne.symm hp)
      rw [Flow.sectionThrough_cons_of_ne flow block hp, List.any_cons, hother, Bool.false_or]
      exact ih

end HasOptions

end

namespace Compiler

variable {c : Compiler} {kind name : String} (resolved : Job → List String)

/-- **All blocks**: the options are laid as soon as a block of their type has a position of the step. -/
theorem hasOptions_sectionThrough (hflow : c.flow.Standard)
    (honly : ∀ f ∈ c.flow.followers, f.step = name → f.blockType = kind) : ∀ (jobs : List Job) {laid : Bool}
    {current : Object}, HasOptions (c.flow.valuesFor name) laid current →
    HasOptions (c.flow.valuesFor name)
      (laid || jobs.any fun job => job.block.kind == kind && (c.positionsOf resolved job).any (·.step.name == name))
      (c.sectionThrough resolved name jobs current)
  | [], laid, _, h => by
    rw [List.any_nil, Bool.or_false]
    exact h
  | job :: jobs, laid, current, h => by
    have hblock := h.sectionThrough hflow honly job.block _ (c.isStandard_positionsOf resolved hflow job)
    have ih := hasOptions_sectionThrough hflow honly jobs hblock
    rw [Bool.or_assoc] at ih
    rw [List.any_cons, sectionThrough_cons]
    exact ih

/-- **Options do not depend on how much is compiled.**  Where all that follows a step follows it in blocks of one type,
whose chain has the step, a run over any pages with at least one such block leaves the step's options as those of its
post-processors laid over one another once.  With nothing to lay there are none. -/
theorem options_of_update (c : Compiler) (hflow : c.flow.Standard) (present : Path → Bool) {kind name : String}
    (hstep : ∃ step ∈ c.flow.chainOf kind, step.name = name)
    (honly : ∀ f ∈ c.flow.followers, f.step = name → f.blockType = kind) {pages : List Page}
    (hblock : ∃ page ∈ pages, ∃ block ∈ page.blocks, block.kind = kind) {config result : Config}
    (hrun : (c.update present pages).run.run config = (.ok (), result)) :
    ∃ entry generated, result.get? name = some (.object entry) ∧ entry.get? sectionKey = some (.object generated) ∧
      generated.get? optionsKey =
        if c.flow.valuesFor name = [] then none else some (Json.layered (c.flow.valuesFor name)) := by
  obtain ⟨page, hpage, block, hmem, rfl⟩ := hblock
  have hjob : Job.mk page block ∈ jobsOf pages := List.mem_flatMap.2 ⟨page, hpage, List.mem_map_of_mem hmem⟩
  have htouches : c.Touches name ⟨page, block⟩ := List.mem_map.2 hstep
  obtain ⟨resolved, hsections⟩ := c.exists_section_of_update present hrun
  obtain ⟨entry, hentry, hsection⟩ := hsections name ⟨_, hjob, htouches⟩
  refine ⟨entry, _, hentry, hsection, ?_⟩
  have hoptions := hasOptions_sectionThrough resolved hflow honly (jobsOf pages)
    (show HasOptions (c.flow.valuesFor name) false .nil from rfl)
  have hlaid : ((jobsOf pages).any fun job =>
      job.block.kind == block.kind && (c.positionsOf resolved job).any (·.step.name == name)) = true := by
    rw [Touches, ← c.map_name_positionsOf resolved] at htouches
    obtain ⟨p, hp, hname⟩ := List.mem_map.1 htouches
    exact List.any_eq_true.2 ⟨_, hjob, by simpa using ⟨p, hp, hname⟩⟩
  rw [hlaid, Bool.false_or, HasOptions, if_pos rfl] at hoptions
  rw [hoptions]
  by_cases hnone : c.flow.valuesFor name = []
  · rw [if_pos hnone, hnone]
    rfl
  · rw [if_neg hnone, Json.layeredAt_eq hnone]
    rfl

/-- A step that stands twice in one chain and once in another, with options that replace and fill an object. -/
def layering : Compiler where
  flow.chains := [("js", [.concat, .uglify, .concat]), ("css", [.concat, .cssmin])]
  flow.followers := [
    ⟨"js", "concat", ⟨"concat", .options (.object (.ofList [("mode", .object (.ofList [("a", .null)]))]))⟩⟩,
    ⟨"js", "concat", ⟨"concat", .options (.object (.ofList [("mode", .string "off")]))⟩⟩,
    ⟨"css", "cssmin", ⟨"cssmin", .options (.bool true)⟩⟩, ⟨"js", "concat", ⟨"concat", .options .null⟩⟩,
    ⟨"js", "concat", ⟨"concat", .options (.object (.ofList [("mode", .object (.ofList [("b", .bool true)]))]))⟩⟩]
  targets := ⟨⟨"dist"⟩, ⟨".tmp"⟩⟩
  search := ⟨[⟨"app"⟩], false, none⟩

theorem standard_layering : layering.flow.Standard where
  steps := by decide
  posts := by
    simp [layering]

/-- The options of the shared step after three blocks, two of the type that sets them. -/
theorem options_layering : ∃ result entry generated,
    (layering.update (fun _ => false) [.ofSources "js" "a.js" ["a.js"], .ofSources "css" "a.css" ["a.css"],
      .ofSources "js" "b.js" ["b.js"]]).run.run .nil = (.ok (), result) ∧
    result.get? "concat" = some (.object entry) ∧ entry.get? sectionKey = some (.object generated) ∧
    generated.get? optionsKey = some (.object (.ofList [("mode", .object (.ofList [("b", .bool true)]))])) := by
  let pages : List Page :=
    [.ofSources "js" "a.js" ["a.js"], .ofSources "css" "a.css" ["a.css"], .ofSources "js" "b.js" ["b.js"]]
  obtain ⟨⟨⟩, hok⟩ := faultOf_eq_none.1
    (show faultOf ((layering.update (fun _ => false) pages).run.run .nil).1 = none by decide +kernel)
  have hrun : (layering.update (fun _ => false) pages).run.run .nil =
      (.ok (), ((layering.update (fun _ => false) pages).run.run .nil).2) := Prod.ext hok rfl
  have honly : ∀ f ∈ layering.flow.followers, f.step = "concat" → f.blockType = "js" := by simp [layering]
  obtain ⟨entry, generated, hentry, hgenerated, hoptions⟩ := layering.options_of_update standard_layering
    (fun _ => false) ⟨.concat, List.mem_cons_self, rfl⟩ honly ⟨_, List.mem_cons_self, _, List.mem_cons_self, rfl⟩ hrun
  exact ⟨_, entry, generated, hrun, hentry, hgenerated, hoptions⟩

end Compiler

end StepChain
