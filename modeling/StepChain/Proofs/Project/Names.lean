import StepChain.Proofs.Flow.Construction
import StepChain.Proofs.Project.PostOptions
/-!
# What can still be wrong with an accepted project file

A project file is accepted if its layout can be used and its entries have the form they should, whatever names they have
(`Project.ofText_eq_ok_iff`).  So of an accepted file the declarations are there, and a flow or a compiler fails for the
name of an item in a chain only: an identifier that is unknown, or a blank name of a step that the file describes
(`Project.only_names_fail`).
-/
namespace StepChain

theorem Registry.find_eq_error_iff {registry : Registry} {id : String} {cause : ConfigFault} :
    registry.find id = .error cause ↔ (∀ step, registry.find id ≠ .ok step) ∧ .unknown id = cause := by
  rw [find]
  cases (registry.nameOf? id).bind registry.step? <;> simp

theorem Layout.fault_of_check {l : Layout} {cause : ConfigFault} (h : l.check = .error cause) :
    cause = .rootsConflict ∨ cause = .noDest ∨ cause = .noStaging := by
  unfold check at h
  split at h
  · cases h
    exact .inl rfl
  split at h
  · cases h
    exact .inr (.inl rfl)
  split at h
  · cases h
    exact .inr (.inr rfl)
  · cases h

namespace Project

open Toml (Table Value)

/-! ### Which files are accepted -/

/-- A name, or a table with one and perhaps a switch. -/
inductive IsChainItem : Value → Prop where
  | id {item : Value} {text : String} (written : item.name? = some text) : IsChainItem item
  | inline {entries : Table} {name : String} (named : (Table.get? entries "name").bind Value.name? = some name)
      (switch : ∀ v, Table.get? entries "per_source" = some v → ∃ b, v = .boolean b) : IsChainItem (.table entries)

/-- The name of a step, with options that are taken or with none. -/
inductive IsPostItem : Value → Prop where
  | table {entries : Table} {step : String} (followed : (Table.get? entries "step").bind Value.name? = some step)
      (taken : OptionsTaken (Table.get? entries "options")) : IsPostItem (.table entries)
  | list {first : Value} {options : Option Value} {step : String} (followed : first.name? = some step)
      (taken : OptionsTaken options) : IsPostItem (.array (first :: options.toList))

/-- Every entry of a table is a list of such items. -/
def HoldsLists (IsItem : Value → Prop) (entries : Table) : Prop :=
  ∀ e ∈ entries, ∃ items, e.2 = .array items ∧ ∀ item ∈ items, IsItem item

theorem exists_optional_boolean?_iff {v : Option Value} :
    (∃ b, Value.optional Value.boolean? false v = some b) ↔ ∀ w, v = some w → ∃ b, w = .boolean b := by
  cases v with
  | none => simp [Value.optional]
  | some v => cases v <;> simp [Value.optional, Value.boolean?]

theorem isChainItem_iff {item : Value} : IsChainItem item ↔ ∃ entry, chainEntryOf? item = some entry := by
  constructor
  · rintro (hwritten | ⟨hname, hswitch⟩)
    · exact ⟨_, chainEntryOf?_eq_some.2 (.inl ⟨_, hwritten, rfl⟩)⟩
    · obtain ⟨b, hb⟩ := exists_optional_boolean?_iff.2 hswitch
      exact ⟨_, chainEntryOf?_eq_some.2 (.inr ⟨_, _, b, rfl, hname, hb, rfl⟩)⟩
  · rintro ⟨entry, hentry⟩
    rcases chainEntryOf?_eq_some.1 hentry with ⟨text, htext, -⟩ | ⟨entries, name, b, rfl, hname, hb, -⟩
    · exact .id htext
    · exact .inline hname (exists_optional_boolean?_iff.1 ⟨b, hb⟩)

theorem isPostItem_iff {item : Value} :
    IsPostItem item ↔ ∃ written, postOf? item = some written ∧ OptionsTaken written.2 := by
  constructor
  · rintro (⟨hstep, htaken⟩ | ⟨hstep, htaken⟩)
    · exact ⟨(_, _), postOf?_eq_some.2 (.inl ⟨_, rfl, hstep, rfl⟩), htaken⟩
    · exact ⟨(_, _), postOf?_eq_some.2 (.inr ⟨_, rfl, hstep⟩), htaken⟩
  · rintro ⟨⟨step, options⟩, hwritten, htaken⟩
    rcases postOf?_eq_some.1 hwritten with ⟨entries, rfl, hstep, rfl⟩ | ⟨first, rfl, hstep⟩
    · exact .table hstep htaken
    · exact .list hstep htaken

theorem exists_chainOf_iff {entry : String × Value} : (∃ chain, chainOf entry = .ok chain) ↔
    ∃ items, entry.2 = .array items ∧ ∀ item ∈ items, IsChainItem item := by
  simp only [chainOf_eq_ok, isChainItem_iff, ← exists_forall₂_iff]
  constructor
  · rintro ⟨chain, items, hitems, hchain⟩
    exact ⟨items, hitems, chain, hchain⟩
  · rintro ⟨items, hitems, chain, hchain⟩
    exact ⟨chain, items, hitems, hchain⟩

theorem checkedPost_iff {blockType : String} {written : String × Option Value} :
    (∃ post, checkedPost blockType written = .ok post) ↔ OptionsTaken written.2 := by
  rw [← faultOf_eq_none, faultOf_checkedPost]

theorem exists_postsOf_iff {entry : String × Value} : (∃ posts, postsOf entry = .ok posts) ↔
    ∃ items, entry.2 = .array items ∧ ∀ item ∈ items, IsPostItem item := by
  simp only [postsOf_eq_ok]
  constructor
  · rintro ⟨posts, items, written, hitems, hwritten, hposts⟩
    refine ⟨items, hitems, fun item hitem => ?_⟩
    obtain ⟨post, w, hw, hpost⟩ := exists_forall₂_iff.1 ⟨posts, forall₂_comp hwritten hposts⟩ item hitem
    exact isPostItem_iff.2 ⟨w, hw, checkedPost_iff.1 ⟨post, hpost⟩⟩
  · rintro ⟨items, hitems, hall⟩
    obtain ⟨written, hwritten⟩ := exists_forall₂_iff.2 fun item hitem => isPostItem_iff.1 (hall item hitem)
    have hchecked : ∀ w ∈ written, ∃ post, checkedPost entry.1 w = .ok post := fun w hw => by
      obtain ⟨item, -, -, htaken⟩ := exists_of_mem_forall₂ hwritten hw
      exact checkedPost_iff.2 htaken
    obtain ⟨posts, hposts⟩ := exists_forall₂_iff.2 hchecked
    exact ⟨posts, items, written, hitems, hwritten.imp fun _ _ h => h.1, hposts⟩

theorem exists_declarations_iff {p : Project} :
    (∃ d, p.declarations = .ok d) ↔ HoldsLists IsChainItem p.steps ∧ HoldsLists IsPostItem p.posts := by
  simp only [HoldsLists, ← exists_chainOf_iff, ← exists_postsOf_iff, ← exists_mapM_keyed_iff]
  constructor
  · rintro ⟨d, h⟩
    obtain ⟨chains, hchains, h⟩ := bind_eq_ok.1 h
    obtain ⟨groups, hgroups, -⟩ := bind_eq_ok.1 h
    exact ⟨⟨chains, hchains⟩, groups, hgroups⟩
  · rintro ⟨⟨chains, hchains⟩, groups, hgroups⟩
    exact ⟨_, bind_eq_ok.2 ⟨chains, hchains, bind_eq_ok.2 ⟨groups, hgroups, rfl⟩⟩⟩

/-- **Which files are accepted.** -/
theorem ofText_eq_ok_iff {text : String} {p : Project} : ofText text = .ok p ↔
    (Table.ofText? text).bind ofTable? = some p ∧ p.layout.check = .ok () ∧
      HoldsLists IsChainItem p.steps ∧ HoldsLists IsPostItem p.posts := by
  rw [← exists_declarations_iff]
  constructor
  · intro h
    obtain ⟨t, ht, hp⟩ := exists_table_of_ofText h
    exact ⟨Option.bind_eq_some_iff.2 ⟨t, ht, hp⟩, layout_of_check (check_of_ofText h), exists_declarations_of_ofText h⟩
  · rintro ⟨hread, hlayout, d, hd⟩
    rw [ofText_of_read hread hlayout, hd]
    rfl

theorem chainOf_ne_config {entry : String × Value} {cause : ConfigFault} : chainOf entry ≠ .error (.config cause) := by
  rw [chainOf]
  split <;> simp

theorem postsOf_ne_config {entry : String × Value} {cause : ConfigFault} : postsOf entry ≠ .error (.config cause) := by
  rw [postsOf]
  split
  · intro h
    obtain ⟨_, written, _, -, -, hwritten⟩ := mapM_eq_error_iff.1 h
    rw [checkedPost] at hwritten
    split at hwritten <;> cases hwritten
  · simp

theorem mapM_keyed_ne_error {α : Type} {f : String × Value → Except ProjectFault α} {fault : ProjectFault}
    (hf : ∀ entry, f entry ≠ .error fault) (entries : Table) :
    entries.mapM (fun entry => do return (entry.1, ← f entry)) ≠ (.error fault : Except ProjectFault _) := by
  intro h
  obtain ⟨_, entry, _, -, -, hentry⟩ := mapM_eq_error_iff.1 h
  rcases bind_eq_error.1 hentry with hentry | ⟨a, -, ha⟩
  · exact hf entry hentry
  · cases ha

theorem declarations_ne_config {p : Project} {cause : ConfigFault} : p.declarations ≠ .error (.config cause) := by
  intro h
  rcases bind_eq_error.1 h with h | ⟨chains, -, h⟩
  · exact mapM_keyed_ne_error (fun _ => chainOf_ne_config) p.steps h
  · rcases bind_eq_error.1 h with h | ⟨groups, -, h⟩
    · exact mapM_keyed_ne_error (fun _ => postsOf_ne_config) p.posts h
    · cases h

theorem config_of_ofText {text : String} {cause : ConfigFault} (h : ofText text = .error (.config cause)) :
    cause = .rootsConflict ∨ cause = .noDest ∨ cause = .noStaging := by
  unfold ofText at h
  split at h
  · rcases bind_eq_error.1 h with h | ⟨-, -, h⟩
    · rcases bind_eq_error.1 h with h | ⟨-, -, h⟩
      · obtain ⟨_, hcheck, hcause⟩ := mapError_eq_error.1 h
        cases hcause
        exact Layout.fault_of_check hcheck
      · rcases bind_eq_error.1 h with h | ⟨-, -, h⟩
        · exact absurd h declarations_ne_config
        · cases h
    · cases h
  · cases h

/-! ### Names -/

/-- The items of all chains in order, each with its block type. -/
def chainItems (p : Project) : List (String × Value) := keyed (p.steps.map fun e => (e.1, e.2.array?.getD []))

/-- What is wrong with the name of an item in the chain of a block type. -/
inductive NameFault (registry : Registry) : String × Value → ConfigFault → Prop where
  | unknown {blockType : String} {item : Value} {id : String} (written : item.name? = some id)
      (missing : ∀ step, registry.find id ≠ .ok step) : NameFault registry (blockType, item) (.unknown id)
  | nameless {blockType : String} {entries : Table} {name : String}
      (named : (Table.get? entries "name").bind Value.name? = some name) (blank : isBlankText name = true) :
      NameFault registry (blockType, .table entries) (.nameless blockType)

/-- The fault of an item, as making its step finds it. -/
def nameFault? (registry : Registry) (x : String × Value) : Option ConfigFault :=
  (chainEntryOf? x.2).bind fun entry => faultOf (Flow.stepOf registry x.1 entry)

section

variable {registry : Registry}

theorem nameFault?_of_entry {x : String × Value} {entry : ChainEntry} (h : chainEntryOf? x.2 = some entry) :
    nameFault? registry x = faultOf (Flow.stepOf registry x.1 entry) := by
  rw [nameFault?, h, Option.bind_some]

theorem nameFault_iff {x : String × Value} {entry : ChainEntry} (h : chainEntryOf? x.2 = some entry)
    {cause : ConfigFault} : NameFault registry x cause ↔ Flow.stepOf registry x.1 entry = .error cause := by
  obtain ⟨blockType, item⟩ := x
  rcases chainEntryOf?_eq_some.1 h with ⟨text, htext, rfl⟩ | ⟨entries, name, b, rfl, hname, -, rfl⟩
  · rw [Flow.stepOf, Registry.find_eq_error_iff]
    constructor
    · rintro (⟨hwritten, hmissing⟩ | -)
      · obtain rfl := Option.some.inj (htext.symm.trans hwritten)
        exact ⟨hmissing, rfl⟩
      · cases htext
    · rintro ⟨hmissing, rfl⟩
      exact .unknown htext hmissing
  · rw [Flow.stepOf]
    constructor
    · rintro (⟨hwritten, -⟩ | ⟨hnamed, hblank⟩)
      · cases hwritten
      · obtain rfl := Option.some.inj (hname.symm.trans hnamed)
        exact if_pos hblank
    · intro h
      by_cases hblank : isBlankText name = true
      · obtain rfl := Except.error.inj ((if_pos hblank).symm.trans h)
        exact .nameless hname hblank
      · cases (if_neg hblank).symm.trans h

theorem not_nameFault_of_find {x : String × Value} {id : String} {step : Step} (hwritten : x.2.name? = some id)
    (hstep : registry.find id = .ok step) (cause : ConfigFault) : ¬ NameFault registry x cause := by
  rw [nameFault_iff (chainEntryOf?_eq_some.2 (.inl ⟨id, hwritten, rfl⟩)), Flow.stepOf, hstep]
  simp

variable {p : Project} {d : Declarations} {groups : List (String × List Post)}

theorem Declares.forall₂_entries (h : p.Declares d groups) :
    List.Forall₂ (fun x y => x.1 = y.1 ∧ chainEntryOf? x.2 = some y.2) p.chainItems d.entries := by
  rw [chainItems, Declarations.entries]
  refine forall₂_keyed (R := fun item entry => chainEntryOf? item = some entry) ?_
  refine List.forall₂_map_left_iff.2 (h.chains.imp fun e c he => ?_)
  obtain ⟨hkey, hchain⟩ := he
  obtain ⟨items, hitems, hentries⟩ := chainOf_eq_ok.1 hchain
  rw [hitems]
  exact ⟨hkey, hentries⟩

/-- **The first item with a name at fault decides**, block types in order and the items of each from its first. -/
theorem Declares.flow_eq_error_iff (h : p.Declares d groups) (hd : p.declarations = .ok d) {fault : ProjectFault} :
    p.flow registry = .error fault ↔ ∃ before x after cause, p.chainItems = before ++ x :: after ∧
      (∀ y ∈ before, ∀ cause, ¬ NameFault registry y cause) ∧ NameFault registry x cause ∧ fault = .config cause := by
  -- the flow is made of entries and the file has items, so both sides are brought to the faults of items
  have hitems := h.forall₂_entries
  have hname : ∀ x ∈ p.chainItems, ∀ cause, nameFault? registry x = some cause ↔ NameFault registry x cause := by
    intro x hx cause
    obtain ⟨y, -, hy⟩ := exists_forall₂_iff.1 ⟨_, hitems⟩ x hx
    rw [nameFault?_of_entry hy, faultOf_eq_some, nameFault_iff hy]
  have hfault : faultOf (Flow.ofDeclarations registry d) = p.chainItems.findSome? (nameFault? registry) := by
    rw [Flow.faultOf_ofDeclarations]
    refine (findSome?_eq_of_forall₂ (fun x y hxy => ?_) hitems).symm
    rw [nameFault?_of_entry hxy.2, hxy.1]
  rw [flow, hd, ok_bind, mapError_eq_error]
  simp only [← faultOf_eq_some, hfault, findSome?_eq_some_iff_of_mem hname]
  constructor
  · rintro ⟨cause, ⟨before, x, after, hsplit, hbefore, hx⟩, rfl⟩
    exact ⟨before, x, after, cause, hsplit, hbefore, hx, rfl⟩
  · rintro ⟨before, x, after, cause, hsplit, hbefore, hx, rfl⟩
    exact ⟨cause, ⟨before, x, after, hsplit, hbefore, hx⟩, rfl⟩

end

/-- **Only names are left to be wrong.**  A file is accepted if its layout can be used and its entries have their form,
whatever names they have, and no fault of a name refuses it.  What an accepted file declares is there.  Its flow over any
registry fails exactly if an item of a chain has a wrong name, as the first of these items, and a compiler fails as the
flow over the built-in steps does. -/
theorem only_names_fail (text : String) :
    (∀ p, ofText text = .ok p ↔ (Table.ofText? text).bind ofTable? = some p ∧ p.layout.check = .ok () ∧
      HoldsLists IsChainItem p.steps ∧ HoldsLists IsPostItem p.posts) ∧
    (∀ cause, ofText text = .error (.config cause) →
      cause = .rootsConflict ∨ cause = .noDest ∨ cause = .noStaging) ∧
    ∀ p, ofText text = .ok p → (∃ d, p.declarations = .ok d) ∧
      (∀ registry fault, p.flow registry = .error fault ↔
        ∃ before x after cause, p.chainItems = before ++ x :: after ∧
          (∀ y ∈ before, ∀ cause, ¬ NameFault registry y cause) ∧ NameFault registry x cause ∧
          fault = .config cause) ∧
      ∀ fault, p.compiler = .error fault ↔ p.flow .standard = .error fault := by
  refine ⟨fun p => ofText_eq_ok_iff, fun cause => config_of_ofText, fun p htext => ?_⟩
  obtain ⟨d, hd⟩ := exists_declarations_of_ofText htext
  obtain ⟨groups, hdeclares⟩ := exists_declares (distinct_of_ofText htext).1.keys hd
  refine ⟨⟨d, hd⟩, fun registry fault => hdeclares.flow_eq_error_iff hd, fun fault => ?_⟩
  rw [← faultOf_eq_some, ← faultOf_eq_some, faultOf_compiler (layout_of_check (check_of_ofText htext))]

/-- An identifier with a slip, and a step that is described without a name. -/
def misnamed : String :=
  "[paths]\ndest=\"d\"\nstaging=\"s\"\n[steps]\njs=[\"concat\",\"uglyfi\"]\ncss=[\x7bname=\" \"\x7d]\n"

/-- Whether a project has the chains of `misnamed`. -/
def isMisnamed (p : Project) : Bool :=
  match p.steps with
  | [("js", .array [.string "concat", .string "uglyfi"]), ("css", .array [.table [("name", .string " ")]])] => true
  | _ => false

/-- The file is accepted.  The slip is the fault, and where an alias makes up for it the blank name is. -/
theorem only_names_fail_misnamed : ∃ p, ofText misnamed = .ok p ∧
    p.flow .standard = .error (.config (.unknown "uglyfi")) ∧ p.compiler = .error (.config (.unknown "uglyfi")) ∧
    p.flow (Registry.standard.after [.addAlias "uglyfi" "uglify"]) = .error (.config (.nameless "css")) := by
  have hread : (ofText misnamed).toOption.any isMisnamed = true := by decide +kernel
  obtain ⟨p, htext, hp⟩ := exists_of_toOption_any hread
  obtain ⟨-, -, haccepted⟩ := only_names_fail misnamed
  obtain ⟨-, hflow, hcompiler⟩ := haccepted p htext
  have hitems : p.chainItems =
      [("js", .string "concat"), ("js", .string "uglyfi"), ("css", .table [("name", .string " ")])] := by
    unfold isMisnamed at hp
    split at hp
    case h_1 hsteps =>
      rw [chainItems, hsteps]
      rfl
    case h_2 => cases hp
  have hunknown : p.flow .standard = .error (.config (.unknown "uglyfi")) := by
    refine (hflow _ _).2 ⟨[_], _, [_], _, hitems, List.forall_mem_singleton.2 ?_, .unknown rfl ?_, rfl⟩
    · exact not_nameFault_of_find rfl (show Registry.standard.find "concat" = .ok .concat from rfl)
    · exact (Registry.find_eq_error_iff.1 (show Registry.standard.find "uglyfi" = .error _ from rfl)).1
  refine ⟨p, htext, hunknown, (hcompiler _).2 hunknown, ?_⟩
  refine (hflow _ _).2 ⟨[_, _], _, [], _, hitems, List.forall_mem_cons.2 ⟨?_, List.forall_mem_singleton.2 ?_⟩,
    .nameless rfl (by decide), rfl⟩
  · exact not_nameFault_of_find rfl (show Registry.find _ "concat" = .ok .concat from rfl)
  · exact not_nameFault_of_find rfl (show Registry.find _ "uglyfi" = .ok .uglify from rfl)

end Project

end StepChain
