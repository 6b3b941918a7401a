import StepChain.Proofs.Flow.Construction
import StepChain.Proofs.Project.Declarations
import StepChain.Proofs.Toml.Image
/-!
# The flow of a project file

A project file that makes a flow is followed to the letter (`Project.flow_follows`).  The flow has the block types of
`steps` in order, and in the chain of a type each item has become a step in its place: an identifier the built-in step
it stands for, a table a standard step of that name (`Project.DescribesStep`).  Each item under a type in `post` is a
post-processor, which keeps all of its options (`Project.DescribesPost`), and those that follow one step come in the order
of the file.
-/
namespace StepChain

namespace Flow

/-- **Post-processors follow a step in the order of their declaration.** -/
theorem postsAfter_eq {registry : Registry} {d : Declarations} {flow : Flow} (h : ofDeclarations registry d = .ok flow)
    (blockType step : String) : flow.postsAfter blockType step =
      ((d.posts.filter (·.1 == blockType)).map (·.2)).filter
        fun post => (registry.nameOf? post.step).getD post.step == step := by
  obtain ⟨-, hfollowers⟩ := built_of_ofDeclarations h
  rw [postsAfter, hfollowers, List.filter_map, List.map_map, List.filter_map, List.filter_filter]
  refine congrArg (List.map _) (List.filter_congr fun declared _ => ?_)
  exact Bool.and_comm _ _

end Flow

namespace Project

open Toml (Table Value Imaged)

/-- The items under a key; none if it is missing. -/
def itemsAt (entries : Table) (key : String) : List Value := ((Table.get? entries key).bind Value.array?).getD []

/-- What an item of a chain says about the step in its place. -/
inductive DescribesStep : Value → Step → Prop where
  | id {item : Value} {text : String} {step : Step} (written : item.name? = some text)
      (canonical : Registry.standard.nameOf? text = some step.name)
      (builtIn : Registry.standard.step? step.name = some step) : DescribesStep item step
  | inline {entries : Table} {step : Step} (named : (Table.get? entries "name").bind Value.name? = some step.name)
      (files : ∀ m, step.fragment m = m.fileList)
      (mode : step.mode = .perSource ↔ Table.get? entries "per_source" = some (.boolean true)) :
      DescribesStep (.table entries) step

/-- Options and their image; those that are missing have the image `null`. -/
def OptionsImaged (options : Option Value) (image : Json) : Prop :=
  match options with
  | some v => Imaged v image
  | none => image = .null

/-- What an item under a block type says about the post-processor in its place.  A list has the step first, and then
perhaps the options. -/
inductive DescribesPost : Value → Post → Prop where
  | table {entries : Table} {post : Post} {image : Json}
      (followed : (Table.get? entries "step").bind Value.name? = some post.step) (action : post.action = .options image)
      (imaged : OptionsImaged (Table.get? entries "options") image) : DescribesPost (.table entries) post
  | list {first : Value} {options : Option Value} {post : Post} {image : Json}
      (followed : first.name? = some post.step) (action : post.action = .options image)
      (imaged : OptionsImaged options image) : DescribesPost (.array (first :: options.toList)) post

/-! ### One item -/

/-- A missing switch is off. -/
theorem optional_boolean?_eq_true {v : Option Value} :
    Value.optional Value.boolean? false v = some true ↔ v = some (.boolean true) := by
  cases v with
  | none => simp [Value.optional]
  | some v => cases v <;> simp [Value.optional, Value.boolean?]

theorem describesStep_of_chainEntryOf? {item : Value} {entry : ChainEntry} (h : chainEntryOf? item = some entry)
    {step : Step} (hstep : entry.StandsFor .standard step) : DescribesStep item step := by
  rcases chainEntryOf?_eq_some.1 h with ⟨text, htext, rfl⟩ | ⟨entries, name, perSource, rfl, hname, hmode, rfl⟩
  · obtain ⟨name, hname, hbuiltIn, rfl⟩ := hstep
    exact .id htext hname hbuiltIn
  · obtain rfl : step = _ := hstep
    refine .inline hname (fun _ => rfl) ?_
    rw [← optional_boolean?_eq_true, hmode]
    cases perSource <;> simp [Step.standard]

theorem optionsImaged_optionsJson {options : Option Value} (h : ∀ v, options = some v → v.Distinct) :
    OptionsImaged options (optionsJson options) := by
  cases options with
  | none => rfl
  | some v => exact (h v rfl).imaged

theorem describesPost_of_postOf? {item : Value} (hitem : item.Distinct) {written : String × Option Value}
    (h : postOf? item = some written) : DescribesPost item ⟨written.1, .options (optionsJson written.2)⟩ := by
  rcases postOf?_eq_some.1 h with ⟨entries, rfl, hstep, hoptions⟩ | ⟨first, rfl, hstep⟩
  · refine .table hstep rfl (hoptions ▸ optionsImaged_optionsJson fun v hv => ?_)
    exact (Value.distinct_table.1 hitem).get? hv
  · refine .list hstep rfl (optionsImaged_optionsJson fun v hv => ?_)
    exact Value.distinct_array.1 hitem v (by simp [hv])

theorem eq_of_checkedPost {blockType : String} {written : String × Option Value} {post : Post}
    (h : checkedPost blockType written = .ok post) : post = ⟨written.1, .options (optionsJson written.2)⟩ := by
  rw [checkedPost] at h
  split at h
  · exact (Except.ok.inj h).symm
  · cases h

/-! ### The items of a block type -/

theorem describesPosts_of_postsOf {blockType : String} {v : Value} (hv : v.Distinct) {posts : List Post}
    (h : postsOf (blockType, v) = .ok posts) : ∃ items, v = .array items ∧ List.Forall₂ DescribesPost items posts := by
  obtain ⟨items, written, rfl, hwritten, hchecked⟩ := postsOf_eq_ok.1 h
  have hitems := (List.forall₂_and_left _ _).2 ⟨Value.distinct_array.1 hv, hwritten⟩
  refine ⟨items, rfl, (forall₂_comp hitems hchecked).imp fun item post hpost => ?_⟩
  obtain ⟨written, ⟨hdistinct, hitem⟩, hpost⟩ := hpost
  rw [eq_of_checkedPost hpost]
  exact describesPost_of_postOf? hdistinct hitem

theorem forall₂_items_of_rel {β : Type} {R : Value → List β → Prop} {S : Value → β → Prop}
    (hR : ∀ v bs, R v bs → ∃ items, v = .array items ∧ List.Forall₂ S items bs) {v : Option Value} {bs : Option (List β)}
    (h : Option.Rel R v bs) : List.Forall₂ S ((v.bind Value.array?).getD []) (bs.getD []) := by
  cases h with
  | none => exact .nil
  | some h =>
    obtain ⟨items, rfl, hitems⟩ := hR _ _ h
    exact hitems

section

variable {p : Project} {d : Declarations} {groups : List (String × List Post)}

theorem Declares.forall₂_entriesOf (h : p.Declares d groups) (blockType : String) :
    List.Forall₂ (fun item entry => chainEntryOf? item = some entry) (itemsAt p.steps blockType)
      (d.entriesOf blockType) :=
  forall₂_items_of_rel (fun _ _ => chainOf_eq_ok.1)
    (rel_find?_of_forall₂ (R := fun key v chain => chainOf (key, v) = .ok chain) h.chains blockType)

theorem Declares.forall₂_posts (h : p.Declares d groups) (hposts : p.posts.Distinct) (blockType : String) :
    List.Forall₂ DescribesPost (itemsAt p.posts blockType) ((d.posts.filter (·.1 == blockType)).map (·.2)) := by
  have hkeys : (groups.map (·.1)).Nodup := by
    rw [← map_eq_of_forall₂ (fun _ _ he => he.1) h.grouped]
    exact hposts.keys
  -- what is declared for the type comes from one entry, whose tables the image needs to be without double keys
  have hgrouped := (List.forall₂_and_left _ _).2 ⟨hposts.each, h.grouped⟩
  rw [h.posts, map_filter_keyed blockType hkeys]
  refine forall₂_items_of_rel (fun v posts hv => describesPosts_of_postsOf hv.1 hv.2) (rel_find?_of_forall₂
    (R := fun key v posts => v.Distinct ∧ postsOf (key, v) = .ok posts) (hgrouped.imp fun e g he => ?_) blockType)
  exact ⟨he.2.1, he.1, he.2.2⟩

end

/-- **The flow follows the document.**  Its block types are the keys of `steps` in order.  Every item of a chain has
become the step that it describes, in its place, and no type has other steps.  A step is followed by the items under the
type in `post` that name it or an alias of it, in order, each as it is described with all of its options. -/
theorem flow_follows {text : String} {p : Project} {flow : Flow} (htext : ofText text = .ok p)
    (hflow : p.flow .standard = .ok flow) :
    (∃ t, Table.ofText? text = some t ∧ ofTable? t = some p ∧ flow.types = t.keysAt "steps" ∧
      p.steps.map (·.1) = t.keysAt "steps" ∧ p.posts.map (·.1) = t.keysAt "post") ∧
    p.steps.Distinct ∧ p.posts.Distinct ∧ (∀ e ∈ p.steps ++ p.posts, ∃ items, e.2 = .array items) ∧
    (∀ blockType, List.Forall₂ DescribesStep (itemsAt p.steps blockType) (flow.chainOf blockType)) ∧
    ∀ blockType, ∃ posts, List.Forall₂ DescribesPost (itemsAt p.posts blockType) posts ∧
      ∀ step, flow.postsAfter blockType step =
        posts.filter fun post => (Registry.standard.nameOf? post.step).getD post.step == step := by
  obtain ⟨t, ht, hp⟩ := exists_table_of_ofText htext
  obtain ⟨hsections, hpostSections⟩ := sections_of_ofTable? hp
  obtain ⟨hsteps, hposts⟩ := distinct_of_ofText htext
  obtain ⟨d, hd, hflow⟩ := bind_eq_ok.1 hflow
  rw [mapError_eq_ok] at hflow
  obtain ⟨groups, hdeclares⟩ := exists_declares hsteps.keys hd
  have htypes : flow.types = p.steps.map (·.1) :=
    (Flow.types_of_ofDeclarations hflow).trans (map_eq_of_forall₂ (fun _ _ he => he.1) hdeclares.chains).symm
  have hkeys := keys_of_optional hsections
  refine ⟨⟨t, ht, hp, htypes.trans hkeys, hkeys, keys_of_optional hpostSections⟩, hsteps, hposts, fun e he => ?_,
    fun blockType => ?_, fun blockType => ?_⟩
  · rcases List.mem_append.1 he with he | he
    · obtain ⟨c, -, hc⟩ := exists_forall₂_iff.1 ⟨_, hdeclares.chains⟩ e he
      obtain ⟨items, hitems, -⟩ := chainOf_eq_ok.1 hc
      exact ⟨items, hitems⟩
    · obtain ⟨g, -, hg⟩ := exists_forall₂_iff.1 ⟨_, hdeclares.grouped⟩ e he
      obtain ⟨items, -, hitems, -⟩ := postsOf_eq_ok.1 hg
      exact ⟨items, hitems⟩
  · have hsteps := forall₂_comp (hdeclares.forall₂_entriesOf blockType) (Flow.forall₂_chainOf hflow blockType)
    refine hsteps.imp fun item step h => ?_
    obtain ⟨entry, hitem, hentry⟩ := h
    exact describesStep_of_chainEntryOf? hitem ((Flow.stepOf_eq_ok .standard).1 hentry).2
  · exact ⟨_, hdeclares.forall₂_posts hposts blockType, Flow.postsAfter_eq hflow blockType⟩

/-- Scripts before styles, and options for a step under its own name that the chain has by its alias. -/
def scriptsFirst : String :=
  "[paths]\ndest=\"d\"\nstaging=\"s\"\n[steps]\njs=[\"uglifyjs\"]\ncss=[\x7bname=\"mark\",per_source=true\x7d]\n" ++
    "[[post.js]]\nstep=\"uglify\"\noptions=\x7bsince=2024-05-01,rate=nan\x7d\n"

/-- Whether a project has the entries of `scriptsFirst`. -/
def isScriptsFirst (p : Project) : Bool :=
  match p.steps, p.posts with
  | [("js", .array [.string "uglifyjs"]),
      ("css", .array [.table [("name", .string "mark"), ("per_source", .boolean true)]])],
    [("js", .array [.table [("step", .string "uglify"),
      ("options", .table [("since", .datetime _), ("rate", .float none)])]])] => true
  | _, _ => false

theorem exists_flow_scriptsFirst : ∃ p flow, ofText scriptsFirst = .ok p ∧ p.flow .standard = .ok flow ∧
    isScriptsFirst p = true := by
  have hread : (ofText scriptsFirst).toOption.any (fun p => (p.flow .standard).toOption.any fun _ => isScriptsFirst p) =
      true := by decide +kernel
  obtain ⟨p, htext, hp⟩ := exists_of_toOption_any hread
  obtain ⟨flow, hflow, hp⟩ := exists_of_toOption_any hp
  exact ⟨p, flow, htext, hflow, hp⟩

/-- The types are not sorted, and the options that follow `uglifyjs` have a date as text and no rate. -/
theorem flow_follows_scriptsFirst : ∃ p flow, ofText scriptsFirst = .ok p ∧ p.flow .standard = .ok flow ∧
    flow.types = ["js", "css"] ∧ flow.chainOf "js" = [.uglify] ∧
    (∃ mark, flow.chainOf "css" = [mark] ∧ mark.name = "mark" ∧ mark.mode = .perSource) ∧
    ∃ image, flow.postsAfter "js" "uglify" = [⟨"uglify", .options (.object image)⟩] ∧
      image.get? "rate" = some .null ∧ ∃ text, image.get? "since" = some (.string text) := by
  obtain ⟨p, flow, htext, hflow, hp⟩ := exists_flow_scriptsFirst
  obtain ⟨⟨t, ht, -, htypes, -, -⟩, -, -, -, hchains, hposts⟩ := flow_follows htext hflow
  have hkeys : (Table.ofText? scriptsFirst).map (·.keysAt "steps") = some ["js", "css"] := by decide +kernel
  rw [ht] at hkeys
  unfold isScriptsFirst at hp
  split at hp
  case h_2 => cases hp
  case h_1 since hsteps hwritten =>
  rw [hsteps] at hchains
  obtain ⟨first, hfirst, hjs⟩ := forall₂_singleton_left.1 (hchains "js")
  obtain ⟨mark, hmark, hcss⟩ := forall₂_singleton_left.1 (hchains "css")
  obtain ⟨posts, hdescribed, hposts⟩ := hposts "js"
  rw [hwritten] at hdescribed
  obtain ⟨post, hpost, rfl⟩ := forall₂_singleton_left.1 hdescribed
  refine ⟨p, flow, htext, hflow, htypes.trans (Option.some.inj hkeys), ?_, ⟨mark, hcss, ?_⟩, ?_⟩
  · cases hfirst with
    | id written canonical builtIn =>
      cases written
      rw [← Option.some.inj canonical] at builtIn
      rw [hjs, ← Option.some.inj builtIn]
  · cases hmark with
    | id written _ _ => cases written
    | inline named _ mode => exact ⟨(Option.some.inj named).symm, mode.2 rfl⟩
  · obtain ⟨step, action⟩ := post
    cases hpost with
    | table followed action imaged =>
      cases followed
      cases action
      cases imaged with
      | @table _ image keys =>
        obtain ⟨_, hrate, hnone⟩ := (Imaged.table keys).exists_get? "rate" rfl
        obtain ⟨_, hsince, htext⟩ := (Imaged.table keys).exists_get? "since" rfl
        cases hnone
        cases htext
        exact ⟨image, hposts "uglify", hrate, _, hsince⟩

end Project

end StepChain
