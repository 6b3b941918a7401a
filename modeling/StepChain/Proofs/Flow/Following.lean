import StepChain.Proofs.Compile.Record
import StepChain.Proofs.Flow.Declared
import StepChain.Proofs.Registry.Integrity
/-!
# Which steps a post-processor reaches

A post-processor names a step as an entry of a chain does, by identifier or by the name of a step given as it is.  It
reaches the step that an entry of its own name became, and is called for every block of the type, unless that step was
given as it is under a name that the registry has as an alias (`follows_iff_not_shadowed`): then the post-processor goes
by the alias, the step by its name, and they miss each other (`not_follows_shadowed`).
-/
namespace StepChain

/-- What an entry is called: its identifier, or the name of the step that it gives. -/
def ChainEntry.ident : ChainEntry → String
  | id text => text
  | step s => s.name

/-- The entry gives a step under a name that is an alias. -/
def ChainEntry.IsShadowed (registry : Registry) (entry : ChainEntry) : Prop :=
  ∃ s, entry = .step s ∧ (registry.alias? s.name).isSome

namespace ChainEntry

theorem not_isShadowed_id (registry : Registry) (text : String) : ¬ (id text).IsShadowed registry := by
  rintro ⟨s, hs, -⟩
  cases hs

theorem isShadowed_step {registry : Registry} {s : Step} :
    (step s).IsShadowed registry ↔ (registry.alias? s.name).isSome := by
  constructor
  · rintro ⟨t, ht, halias⟩
    cases ht
    exact halias
  · exact fun halias => ⟨s, rfl, halias⟩

end ChainEntry

namespace Flow

theorem nameOf?_ident_eq_iff {registry : Registry} (hregistry : registry.Sound) {kind : String} {entry : ChainEntry}
    {step : Step} (h : stepOf registry kind entry = .ok step) :
    (registry.nameOf? entry.ident).getD entry.ident = step.name ↔ ¬ entry.IsShadowed registry := by
  cases entry with
  | id text =>
    -- the chain and the post-processor look the identifier up in one way
    have hname := Registry.nameOf?_of_find h
    rw [ChainEntry.ident, hname, Option.getD_some]
    exact iff_of_true rfl (ChainEntry.not_isShadowed_id registry text)
  | step s =>
    -- the chain keeps the step's own name, which the lookup leads away from if it is an alias
    have hstep : s = step := by
      rw [stepOf] at h
      split at h
      · cases h
      · exact Except.ok.inj h
    rw [ChainEntry.ident, ← hstep, hregistry.nameOf?_getD, ChainEntry.isShadowed_step, Option.not_isSome_iff_eq_none]

/-- **A post-processor reaches the step of its name unless an alias shadows it.**  For an entry of a type's chain that
is called what a post-processor of the type names, the post-processor follows the step that the entry became exactly if
the entry is not shadowed.  It is then called for every block of the type in every run that succeeds. -/
theorem follows_iff_not_shadowed {registry : Registry} (hregistry : registry.Reachable) {ds : List Declaration}
    {flow : Flow} (hflow : ofDeclarations registry (.ofList ds) = .ok flow) {kind : String} {post : Post}
    (hpost : .post kind post ∈ ds) {i : Nat} {entry : ChainEntry}
    (hentry : (Declaration.lastChain kind ds)[i]? = some entry) (hident : entry.ident = post.step) :
    ∃ step, (flow.chainOf kind)[i]? = some step ∧
      (post ∈ flow.postsAfter kind step.name ↔ ¬ entry.IsShadowed registry) ∧
      (¬ entry.IsShadowed registry → ∀ (c : Compiler) present pages config result, c.flow = flow →
        (c.run present pages config).outcome = .ok result →
        ∀ page ∈ pages, ∀ block ∈ page.blocks, block.kind = kind →
          ∃ found, Call.post post block found ∈ (c.run present pages config).calls) := by
  have hsteps := forall₂_chainOf hflow kind
  rw [Declarations.entriesOf_ofList] at hsteps
  obtain ⟨hi, rfl⟩ := List.getElem?_eq_some_iff.1 hentry
  have hi' : i < (flow.chainOf kind).length := hsteps.length_eq ▸ hi
  have hstep := hsteps.get hi hi'
  have hfollows : post ∈ flow.postsAfter kind (flow.chainOf kind)[i].name ↔
      ¬ (Declaration.lastChain kind ds)[i].IsShadowed registry := by
    rw [mem_postsAfter hflow, Declarations.mem_posts_ofList, and_iff_right hpost, ← hident]
    exact nameOf?_ident_eq_iff hregistry.sound hstep
  refine ⟨(flow.chainOf kind)[i], List.getElem?_eq_getElem hi', hfollows, ?_⟩
  rintro hshadowed c present pages config result rfl hrun page hpage block hblock rfl
  exact c.exists_post_mem_calls present hrun hpage hblock (List.getElem_mem hi') (hfollows.2 hshadowed)

/-- One post-processor names the alias that the chain has too, the other a step that the chain gives as it is. -/
def aliasAndMark : List Declaration :=
  [.chain "js" [.id "uglifyjs", .step (.standard "mark" .merged)], .post "js" ⟨"uglifyjs", .options (.bool true)⟩,
    .post "js" ⟨"mark", .options (.bool false)⟩]

theorem follows_aliasAndMark : ∃ flow first second, ofDeclarations .standard (.ofList aliasAndMark) = .ok flow ∧
    (flow.chainOf "js")[0]? = some first ∧ ⟨"uglifyjs", .options (.bool true)⟩ ∈ flow.postsAfter "js" first.name ∧
    (flow.chainOf "js")[1]? = some second ∧ ⟨"mark", .options (.bool false)⟩ ∈ flow.postsAfter "js" second.name := by
  obtain ⟨flow, hflow⟩ : ∃ flow, ofDeclarations .standard (.ofList aliasAndMark) = .ok flow := ⟨_, rfl⟩
  have huglify : .post "js" ⟨"uglifyjs", .options (.bool true)⟩ ∈ aliasAndMark := by simp [aliasAndMark]
  have hmark : .post "js" ⟨"mark", .options (.bool false)⟩ ∈ aliasAndMark := by simp [aliasAndMark]
  have hid : ¬ (ChainEntry.id "uglifyjs").IsShadowed .standard := ChainEntry.not_isShadowed_id .standard "uglifyjs"
  have hstep : ¬ (ChainEntry.step (.standard "mark" .merged)).IsShadowed .standard := by
    rw [ChainEntry.isShadowed_step]
    decide
  obtain ⟨first, hfirst, hfollows, -⟩ := follows_iff_not_shadowed .standard hflow huglify (i := 0) rfl rfl
  obtain ⟨second, hsecond, hfollows', -⟩ := follows_iff_not_shadowed .standard hflow hmark (i := 1) rfl rfl
  exact ⟨flow, first, second, hflow, hfirst, hfollows.2 hid, hsecond, hfollows'.2 hstep⟩

/-- **A step given as it is under a name that is an alias is missed** by the post-processor of that name. -/
theorem not_follows_shadowed :
    ¬ ∀ (registry : Registry) (ds : List Declaration) (flow : Flow) (kind : String) (post : Post) (i : Nat)
      (entry : ChainEntry), registry.Reachable → ofDeclarations registry (.ofList ds) = .ok flow →
      .post kind post ∈ ds → (Declaration.lastChain kind ds)[i]? = some entry → entry.ident = post.step →
      ∃ step, (flow.chainOf kind)[i]? = some step ∧ post ∈ flow.postsAfter kind step.name := by
  intro h
  have hflow : ∀ action, ofDeclarations .standard
      (.ofList [.chain "js" [.step (.standard "uglifyjs" .merged)], .post "js" ⟨"uglifyjs", action⟩]) =
      .ok ⟨[("js", [.standard "uglifyjs" .merged])], [⟨"js", "uglify", ⟨"uglifyjs", action⟩⟩]⟩ := fun _ => by rfl
  let action : PostAction := .options (.object (.ofList [("mangle", .bool false)]))
  have hentry : (Declaration.lastChain "js" [.chain "js" [.step (.standard "uglifyjs" .merged)],
      .post "js" ⟨"uglifyjs", action⟩])[0]? = some (.step (.standard "uglifyjs" .merged)) := rfl
  obtain ⟨step, hstep, hpost⟩ := h .standard _ _ "js" ⟨"uglifyjs", action⟩ 0 _ .standard (hflow action) (by simp)
    hentry rfl
  cases hstep
  cases hpost

end Flow

end StepChain
