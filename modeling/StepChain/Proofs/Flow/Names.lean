import StepChain.Proofs.Compile.Succession
import StepChain.Proofs.Flow.Declared
import StepChain.Proofs.Registry.History
/-!
# Steps without a name

A step that a chain gives as it is needs a name that is not blank, but a registry takes any name.  So the steps of a
flow have names unless the registry was once granted a step without one (`named_iff`), and then an identifier leads to
it (`exists_nameless`).  Where all have names, no configuration gets an entry under a blank one.
-/
namespace StepChain

namespace Registry

/-- Among these requests, one for a step is granted. -/
def Grants (start : Registry) (requests : List Request) (s : Step) : Prop :=
  ∃ before later, requests = before ++ .addStep s :: later ∧
    ((serve (.addStep s)).run.run (start.after before)).1 = .ok ()

theorem mem_steps_serve {r : Registry} {q : Request} {s : Step} : s ∈ ((serve q).run.run r).2.steps ↔
    s ∈ r.steps ∨ q = .addStep s ∧ ((serve q).run.run r).1 = .ok () := by
  rw [run_serve]
  cases hq : r.answer q with
  | error e => simp
  | ok r' =>
    cases q with
    | addStep t =>
      obtain ⟨-, -, rfl⟩ := addStep_eq_ok.1 hq
      simp [eq_comm]
    | addAlias name step =>
      obtain ⟨-, -, -, rfl⟩ := addAlias_eq_ok.1 hq
      simp

theorem grants_cons {start : Registry} {q : Request} {requests : List Request} {s : Step} :
    start.Grants (q :: requests) s ↔ (q = .addStep s ∧ ((serve q).run.run start).1 = .ok ()) ∨
      ((serve q).run.run start).2.Grants requests s := by
  constructor
  · rintro ⟨before, later, hsplit, hgranted⟩
    cases before with
    | nil =>
      obtain ⟨rfl, -⟩ := List.cons.inj hsplit
      exact .inl ⟨rfl, hgranted⟩
    | cons p before =>
      obtain ⟨rfl, rfl⟩ := List.cons.inj hsplit
      exact .inr ⟨before, later, rfl, hgranted⟩
  · rintro (⟨rfl, hgranted⟩ | ⟨before, later, rfl, hgranted⟩)
    · exact ⟨[], requests, rfl, hgranted⟩
    · exact ⟨q :: before, later, rfl, hgranted⟩

/-- **A registry has the steps it started with and those it was granted.** -/
theorem mem_steps_after {s : Step} : ∀ {start : Registry} {requests : List Request},
    s ∈ (start.after requests).steps ↔ s ∈ start.steps ∨ start.Grants requests s
  | start, [] => by
    have hnone : ¬ start.Grants [] s := by
      rintro ⟨before, later, hsplit, -⟩
      simp at hsplit
    simp [after, hnone]
  | start, q :: requests => by
    have ih : s ∈ (((serve q).run.run start).2.after requests).steps ↔
        s ∈ ((serve q).run.run start).2.steps ∨ ((serve q).run.run start).2.Grants requests s := mem_steps_after
    rw [grants_cons, ← or_assoc, ← mem_steps_serve]
    exact ih

theorem find_mem_steps {r : Registry} {id : String} {s : Step} (h : r.find id = .ok s) : s ∈ r.steps := by
  obtain ⟨name, -, hstep⟩ := find_eq_ok.1 h
  exact List.mem_of_find?_eq_some hstep

theorem Keyed.find {r : Registry} (h : r.Keyed) {s : Step} (hs : s ∈ r.steps) : r.find s.name = .ok s := by
  have hstep := h s hs
  have hknown : (r.step? s.name).isSome := by rw [hstep]; rfl
  exact find_eq_ok.2 ⟨s.name, nameOf?_of_step? hknown, hstep⟩

theorem named_of_start {start : Registry} (hstart : start = .empty ∨ start = .standard) {s : Step}
    (hs : s ∈ start.steps) : isBlankText s.name = false := by
  rcases hstart with rfl | rfl
  · cases hs
  · simp only [standard, List.mem_cons, List.not_mem_nil, or_false] at hs
    rcases hs with rfl | rfl | rfl <;> decide

end Registry

namespace Flow

/-- Every step of a chain has a name that is not blank. -/
def Named (flow : Flow) : Prop := ∀ kind, ∀ step ∈ flow.chainOf kind, isBlankText step.name = false

theorem exists_id_of_blank {registry : Registry} {kind : String} {entry : ChainEntry} {step : Step}
    (h : stepOf registry kind entry = .ok step) (hblank : isBlankText step.name = true) :
    ∃ id, entry = .id id ∧ registry.find id = .ok step := by
  cases entry with
  | id id => exact ⟨id, rfl, h⟩
  | step s =>
    rw [stepOf] at h
    split at h
    · cases h
    · rename_i hname
      obtain rfl := Except.ok.inj h
      exact absurd hblank hname

/-- **A step without a name comes from an identifier**, and so from the registry. -/
theorem exists_id_of_getElem? {registry : Registry} {ds : List Declaration} {flow : Flow}
    (hflow : ofDeclarations registry (.ofList ds) = .ok flow) {kind : String} {i : Nat} {step : Step}
    (hstep : (flow.chainOf kind)[i]? = some step) (hblank : isBlankText step.name = true) :
    ∃ id, (Declaration.lastChain kind ds)[i]? = some (.id id) ∧ registry.find id = .ok step := by
  have hsteps := forall₂_chainOf hflow kind
  rw [Declarations.entriesOf_ofList] at hsteps
  obtain ⟨hi, rfl⟩ := List.getElem?_eq_some_iff.1 hstep
  have hi' : i < (Declaration.lastChain kind ds).length := hsteps.length_eq ▸ hi
  obtain ⟨id, hid, hfind⟩ := exists_id_of_blank (hsteps.get hi' hi) hblank
  exact ⟨id, (List.getElem?_eq_getElem hi').trans (congrArg some hid), hfind⟩

theorem ofDeclarations_id {registry : Registry} {id : String} {s : Step} (h : registry.find id = .ok s)
    (kind : String) : ofDeclarations registry (.ofList [.chain kind [.id id]]) = .ok ⟨[(kind, [s])], []⟩ := by
  have hdeclared : Declarations.ofList [.chain kind [.id id]] = ⟨[(kind, [.id id])], []⟩ := rfl
  rw [hdeclared, ofDeclarations]
  simp only [List.mapM_cons, List.mapM_nil, stepOf, h]
  rfl

theorem named_iff_of_keyed {registry : Registry} (hkeyed : registry.Keyed) :
    (∀ ds flow, ofDeclarations registry (.ofList ds) = .ok flow → flow.Named) ↔
      ∀ s ∈ registry.steps, isBlankText s.name = false := by
  constructor
  · intro h s hs
    have hnamed := h _ _ (ofDeclarations_id (hkeyed.find hs) "js")
    exact hnamed "js" s List.mem_cons_self
  · intro h ds flow hflow kind step hstep
    by_contra hblank
    obtain ⟨i, hi⟩ := List.mem_iff_getElem?.1 hstep
    obtain ⟨id, -, hfind⟩ := exists_id_of_getElem? hflow hi (by simpa using hblank)
    exact hblank (h step (Registry.find_mem_steps hfind))

theorem Named.of_mem_positions {c : Compiler} (h : c.flow.Named) {block : Block} {sources : List String} {p : Position}
    (hp : p ∈ c.positions block sources) : isBlankText p.step.name = false := by
  have hstep : p.step ∈ c.flow.chainOf block.kind := by
    rw [← c.targets.map_step_wire block.dest (c.flow.chainOf block.kind) sources]
    exact List.mem_map_of_mem hp
  exact h block.kind p.step hstep

theorem Named.get?_of_update {c : Compiler} (h : c.flow.Named) {present : Path → Bool} {pages : List Page}
    {config result : Config} (hrun : (c.update present pages).run.run config = (.ok (), result)) {name : String}
    (hblank : isBlankText name = true) : result.get? name = config.get? name := by
  have huntouched : name ∉ c.touched pages := fun hmem => by
    obtain ⟨job, -, htouch⟩ := (c.mem_touched).1 hmem
    obtain ⟨step, hstep, rfl⟩ := List.mem_map.1 htouch
    rw [h job.block.kind step hstep] at hblank
    cases hblank
  rw [Compiler.eq_of_update hrun, get?_withGenerated, c.get?_generatedBy_of_not_mem present huntouched]

/-- **The steps of flows have names unless a registry was granted one without.**  Of a registry that requests have been
made of, all flows have named steps exactly if no request for a step with a blank name was granted.  A step with a blank
name stands in a chain where an identifier leads to one that was granted.  If all steps of a flow have names, so have
those of all positions, and a run leaves the entries under blank names as they are. -/
theorem named_iff {start : Registry} (hstart : start = .empty ∨ start = .standard) (requests : List Registry.Request) :
    ((∀ ds flow, ofDeclarations (start.after requests) (.ofList ds) = .ok flow → flow.Named) ↔
      ∀ s, start.Grants requests s → isBlankText s.name = false) ∧
    ∀ ds flow, ofDeclarations (start.after requests) (.ofList ds) = .ok flow →
      (∀ (kind : String) (i : Nat) step, (flow.chainOf kind)[i]? = some step → isBlankText step.name = true →
        ∃ id, (Declaration.lastChain kind ds)[i]? = some (.id id) ∧
          (start.after requests).find id = .ok step ∧ start.Grants requests step) ∧
      (flow.Named → ∀ c : Compiler, c.flow = flow →
        (∀ block sources, ∀ p ∈ c.positions block sources, isBlankText p.step.name = false) ∧
        ∀ present pages config result, (c.update present pages).run.run config = (.ok (), result) →
          ∀ name, isBlankText name = true → result.get? name = config.get? name) := by
  have hreach : start.Reachable := by
    rcases hstart with rfl | rfl
    · exact .empty
    · exact .standard
  refine ⟨?_, fun ds flow hflow => ⟨?_, ?_⟩⟩
  · rw [named_iff_of_keyed (hreach.after requests).keyed]
    simp only [Registry.mem_steps_after, or_imp, forall_and]
    exact and_iff_right fun s hs => Registry.named_of_start hstart hs
  · intro kind i step hstep hblank
    obtain ⟨id, hid, hfind⟩ := exists_id_of_getElem? hflow hstep hblank
    refine ⟨id, hid, hfind, (Registry.mem_steps_after.1 (Registry.find_mem_steps hfind)).resolve_left fun hs => ?_⟩
    rw [Registry.named_of_start hstart hs] at hblank
    cases hblank
  · rintro hnamed c rfl
    refine ⟨fun block sources p hp => hnamed.of_mem_positions hp, ?_⟩
    exact fun present pages config result hrun name hblank => hnamed.get?_of_update hrun hblank

/-- The blank name is taken as an alias before a step of that name is asked for, which is refused. -/
def blankAlias : List Registry.Request :=
  [.addStep (.standard "mark" .merged), .addAlias " " "mark", .addStep (.standard " " .perSource)]

theorem named_iff_blankAlias :
    (∀ s, Registry.standard.Grants blankAlias s → isBlankText s.name = false) ∧
    ∃ flow, ofDeclarations (Registry.standard.after blankAlias) (.ofList [.chain "js" [.id " ", .id "concat"]]) =
      .ok flow ∧ flow.Named ∧ (flow.chainOf "js").map Step.name = ["mark", "concat"] := by
  obtain ⟨hnamed, -⟩ := named_iff (.inr rfl) blankAlias
  have hgranted : ∀ s, Registry.standard.Grants blankAlias s → isBlankText s.name = false := by
    intro s hs
    have hmem : s ∈ (Registry.standard.after blankAlias).steps := Registry.mem_steps_after.2 (.inr hs)
    have hsteps : (Registry.standard.after blankAlias).steps =
        [.concat, .uglify, .cssmin, .standard "mark" .merged] := rfl
    rw [hsteps] at hmem
    simp only [List.mem_cons, List.not_mem_nil, or_false] at hmem
    rcases hmem with rfl | rfl | rfl | rfl <;> decide
  have hflow : ofDeclarations (Registry.standard.after blankAlias)
      (.ofList [.chain "js" [.id " ", .id "concat"]]) = .ok _ := rfl
  exact ⟨hgranted, _, hflow, hnamed.2 hgranted _ _ hflow, rfl⟩

/-- A registry is granted a step without a name, and a chain has the empty identifier. -/
theorem exists_nameless : ∃ flow result,
    ofDeclarations (Registry.standard.after [.addStep (.standard "" .perSource)])
      (.ofList [.chain "js" [.id "", .id "concat"]]) = .ok flow ∧ ¬ flow.Named ∧
    ((Compiler.mk flow ⟨⟨"dist"⟩, ⟨".tmp"⟩⟩ ⟨[⟨"app"⟩], false, none⟩).update (fun _ => false)
      [.ofSources "js" "site.js" ["a.js"]]).run.run .nil = (.ok (), result) ∧
    (result.get? "").isSome ∧
    ((Compiler.mk flow ⟨⟨"dist"⟩, ⟨".tmp"⟩⟩ ⟨[⟨"app"⟩], false, none⟩).positions ⟨"js", "site.js", ["a.js"]⟩
      ["app/a.js"]).map Position.outputs = [[".tmp/a.js"], ["dist/site.js"]] := by
  refine ⟨_, _, rfl, fun hnamed => ?_, rfl, rfl, by decide +kernel⟩
  have hname := hnamed "js" (.standard "" .perSource) List.mem_cons_self
  exact absurd hname (by decide)

end Flow

end StepChain
