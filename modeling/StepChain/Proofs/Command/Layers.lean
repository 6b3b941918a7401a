import StepChain.Proofs.Command.Stages
import StepChain.Proofs.Json.Replay
/-!
# Layers that are no configurations

A layer that is no object takes the place of all below it, and a layer above it finds nothing to be laid over.  So what
layers amount to is decided by the last of them, and a layer that is no configuration is reported only there
(`layers_reported_iff`).  Under another layer it is dropped in silence with all below it (`Json.layered_drop`).
-/
namespace StepChain

namespace Json

/-- An object, or nothing. -/
def isConfig (v : Json) : Bool := v.isObject || v.isNull

theorem isConfig_layered_concat (layers : List Json) (top : Json) :
    (layered (layers ++ [top])).isConfig = top.isConfig := by
  have h : layered (layers ++ [top]) = (layered layers).overlay top := by simp [layered]
  rw [h]
  cases top with
  | object o =>
    rw [overlay_object_eq]
    rfl
  | _ => rw [overlay_of_not_object rfl]

/-- **Layers count from the last one that is no object**, which another layer replaces. -/
theorem layered_of_not_object {layer : Json} (h : layer.object? = none) (lower : List Json) {upper : List Json}
    (hupper : upper ≠ []) : layered (lower ++ layer :: upper) = layered upper := by
  obtain ⟨first, rest, rfl⟩ := List.exists_cons_of_ne_nil hupper
  unfold layered
  rw [List.foldl_append, List.foldl_cons, overlay_of_not_object h, List.foldl_cons, List.foldl_cons,
    overlay_on_not_object h, overlay_on_not_object rfl]

theorem layered_drop {layers : List Json} {i : Nat} {layer : Json} (hlayer : layers[i]? = some layer)
    (h : layer.isObject = false) (hlast : i + 1 < layers.length) : layered (layers.drop (i + 1)) = layered layers := by
  obtain ⟨hi, rfl⟩ := List.getElem?_eq_some_iff.1 hlayer
  have hupper : layers.drop (i + 1) ≠ [] := by
    rw [ne_eq, List.drop_eq_nil_iff]
    omega
  rw [← layered_of_not_object (isObject_eq_false.1 h) (layers.take i) hupper, List.getElem_cons_drop, List.take_append_drop]

end Json

namespace Command

theorem exists_amountsTo_iff {layers : List Json} :
    (∃ config, AmountsTo layers config) ↔ (Json.layered layers).isConfig = true := by
  constructor
  · rintro ⟨config, h | h⟩
    · rw [h]
      rfl
    · rw [h]
      rfl
  · intro hconfig
    cases h : Json.layered layers with
    | object o => exact ⟨o, .object h⟩
    | null => exact ⟨.nil, .nothing h⟩
    | _ =>
      rw [h] at hconfig
      cases hconfig

/-- **The last layer decides whether layers amount to a configuration.** -/
theorem not_amountsTo_iff {layers : List Json} :
    (∀ config, ¬ AmountsTo layers config) ↔ ∃ top, layers.getLast? = some top ∧ top.isConfig = false := by
  rw [← not_exists, exists_amountsTo_iff]
  rcases List.eq_nil_or_concat layers with rfl | ⟨lower, top, rfl⟩
  · simp [Json.layered, Json.isConfig, Json.isNull]
  · simp [Json.isConfig_layered_concat]

section

variable {files : FileView}

theorem compile_of_layered (project : Path) (pages : List Path) {layers others : List Path}
    {values replacing : List Json} (hvalues : List.Forall₂ (ReadsLayer files) layers values)
    (hreplacing : List.Forall₂ (ReadsLayer files) others replacing)
    (h : Json.layered replacing = Json.layered values) :
    compile files project pages others = compile files project pages layers := by
  have hconfig : configOfLayers replacing = configOfLayers values := by
    rw [configOfLayers, configOfLayers, h]
  simp only [compile, mapM_readLayer_eq_ok.2 hvalues, mapM_readLayer_eq_ok.2 hreplacing, ok_bind, hconfig]

end

theorem message_writing_ne (path : Path) :
    (CommandFault.writing path).message ≠ CommandFault.layersNotObject.message := by
  -- they part at their seventh character
  intro h
  have hlength : 6 < "Error writing ".toList.length := by decide +kernel
  have hwriting : ("Error writing " ++ path.text).toList[6]? = some 'w' := by
    rw [String.toList_append, List.getElem?_append_left hlength]
    decide +kernel
  have hlayers : ("Error loading existing config: existing config must be a JSON object").toList[6]? = some 'l' := by
    decide +kernel
  change "Error writing " ++ path.text = _ at h
  rw [h] at hwriting
  cases hlayers.symm.trans hwriting

section

variable {t : FileTree} {args : List String} {project : Option Path} {pages layers : List Path} {output : Option Path}

/-- Where layers amount to a configuration, only compiling and writing are left to fail. -/
theorem run_ne_layersNotObject (hargs : Request.ofArguments? args = some (.process project pages layers output))
    {c : Compiler} {loaded : List Page} {values : List Json} {config : Config}
    (hloads : Loads t.view (project.getD defaultProject) c) (hpages : List.Forall₂ (ReadsPage t.view) pages loaded)
    (hlayers : List.Forall₂ (ReadsLayer t.view) layers values) (hconfig : AmountsTo values config) :
    (run t args).1 ≠ .failed .layersNotObject := by
  intro hrun
  cases h : ((c.update t.view.present loaded).run.run config).1 with
  | error cause =>
    have hstops := Stops.compilation hloads hpages hlayers hconfig h
    rw [run_of_stops hargs hstops] at hrun
    cases congrArg Outcome.code hrun
  | ok =>
    have hpasses := Passes.intro hloads hpages hlayers hconfig (Prod.ext h rfl)
    obtain hcode | ⟨path, hwriting⟩ := run_of_plan (plan_of_passes hargs hpasses)
    · rw [hrun] at hcode
      cases hcode
    · rw [hrun] at hwriting
      exact message_writing_ne path ((String.append_left_inj _).1 (congrArg Outcome.stderr hwriting.symm))

/-- **Which layers are reported**, where all else can be read: one that is no configuration if it is the last.  One that
is no object and has another layer above it is dropped, with all layers below it. -/
theorem layers_reported_iff {c : Compiler} {loaded : List Page} {values : List Json}
    (hargs : Request.ofArguments? args = some (.process project pages layers output))
    (hloads : Loads t.view (project.getD defaultProject) c) (hpages : List.Forall₂ (ReadsPage t.view) pages loaded)
    (hlayers : List.Forall₂ (ReadsLayer t.view) layers values) :
    (run t args = (⟨1, "", "Error loading existing config: existing config must be a JSON object\n"⟩, t) ↔
      ∃ top, values.getLast? = some top ∧ top.isConfig = false) ∧
    ∀ i layer, values[i]? = some layer → layer.isObject = false → i + 1 < values.length →
      ∀ shorter, Request.ofArguments? shorter = some (.process project pages (layers.drop (i + 1)) output) →
        run t shorter = run t args := by
  refine ⟨⟨fun hrun => ?_, fun htop => ?_⟩, fun i layer hlayer hobject hlast shorter hshorter => ?_⟩
  · rw [← not_amountsTo_iff]
    intro config hconfig
    exact run_ne_layersNotObject hargs hloads hpages hlayers hconfig (congrArg Prod.fst hrun)
  · exact run_of_stops hargs (.notObject hloads hpages hlayers (not_amountsTo_iff.2 htop))
  · have hcompile := compile_of_layered (project.getD defaultProject) pages hlayers
      (List.forall₂_drop (i + 1) hlayers) (Json.layered_drop hlayer hobject hlast)
    rw [run, run, planArguments, planArguments, hargs, hshorter]
    simp only [plan, hcompile]

theorem exists_readsLayers {files : FileView} {asked : List Json → Bool}
    (h : (layers.mapM (readLayer files)).toOption.any asked = true) :
    ∃ values, List.Forall₂ (ReadsLayer files) layers values ∧ asked values = true := by
  obtain ⟨values, hvalues, hasked⟩ := (Option.any_eq_true _ _).1 h
  cases hread : layers.mapM (readLayer files) with
  | error fault => simp [hread, Except.toOption] at hvalues
  | ok found =>
    rw [hread] at hvalues
    obtain rfl : found = values := Option.some.inj hvalues
    exact ⟨found, mapM_readLayer_eq_ok.1 hread, hasked⟩

/-- An array is reported over an object, and not under one. -/
theorem layers_reported_shelf :
    run shelf ["process", "-f", "page.json", "--merge", "base.json", "--merge", "list.json"] =
      (⟨1, "", "Error loading existing config: existing config must be a JSON object\n"⟩, shelf) ∧
    run shelf ["process", "-f", "page.json", "--merge", "empty.json"] =
      run shelf
        ["process", "-f", "page.json", "--merge", "base.json", "--merge", "list.json", "--merge", "empty.json"] := by
  obtain ⟨c, hloads⟩ := exists_loads_shelf
  obtain ⟨page, hpage⟩ := exists_readsPage_shelf
  have hpages : List.Forall₂ (ReadsPage shelf.view) [⟨"page.json"⟩] [page] := .cons hpage .nil
  constructor
  · have hargs : Request.ofArguments? ["process", "-f", "page.json", "--merge", "base.json", "--merge", "list.json"] =
        some (.process none [⟨"page.json"⟩] [⟨"base.json"⟩, ⟨"list.json"⟩] none) := by decide +kernel
    have hasked : (([⟨"base.json"⟩, ⟨"list.json"⟩] : List Path).mapM (readLayer shelf.view)).toOption.any
        (fun values => values.getLast?.any fun top => !top.isConfig) = true := by decide +kernel
    obtain ⟨values, hlayers, hlast⟩ := exists_readsLayers hasked
    obtain ⟨top, htop, hconfig⟩ := (Option.any_eq_true _ _).1 hlast
    obtain ⟨hreported, -⟩ := layers_reported_iff hargs hloads hpages hlayers
    exact hreported.2 ⟨top, htop, by simpa using hconfig⟩
  · have hargs : Request.ofArguments? ["process", "-f", "page.json", "--merge", "base.json", "--merge", "list.json",
        "--merge", "empty.json"] =
        some (.process none [⟨"page.json"⟩] [⟨"base.json"⟩, ⟨"list.json"⟩, ⟨"empty.json"⟩] none) := by decide +kernel
    have hasked : (([⟨"base.json"⟩, ⟨"list.json"⟩, ⟨"empty.json"⟩] : List Path).mapM
        (readLayer shelf.view)).toOption.any
        (fun values => values.length == 3 && values[1]?.any fun layer => !layer.isObject) = true := by decide +kernel
    obtain ⟨values, hlayers, hvalues⟩ := exists_readsLayers hasked
    obtain ⟨hlength, hsecond⟩ := Bool.and_eq_true_iff.1 hvalues
    obtain ⟨layer, hlayer, hobject⟩ := (Option.any_eq_true _ _).1 hsecond
    obtain ⟨-, hdropped⟩ := layers_reported_iff hargs hloads hpages hlayers
    exact hdropped 1 layer hlayer (by simpa using hobject) (by simp [beq_iff_eq.1 hlength]) _ (by decide +kernel)

/-- Not every layer that is no configuration is reported: an array under an object is dropped. -/
theorem exists_unreported : ¬ ∀ (t : FileTree) (args : List String) (project : Option Path) (pages layers : List Path)
    (output : Option Path) (c : Compiler) (loaded : List Page) (values : List Json),
    Request.ofArguments? args = some (.process project pages layers output) →
    Loads t.view (project.getD defaultProject) c → List.Forall₂ (ReadsPage t.view) pages loaded →
    List.Forall₂ (ReadsLayer t.view) layers values → (∃ layer ∈ values, layer.isConfig = false) →
    (run t args).1.code = 1 := by
  intro hall
  obtain ⟨c, hloads⟩ := exists_loads_shelf
  obtain ⟨page, hpage⟩ := exists_readsPage_shelf
  have hargs : Request.ofArguments? ["process", "-f", "page.json", "--merge", "list.json", "--merge", "empty.json"] =
      some (.process none [⟨"page.json"⟩] [⟨"list.json"⟩, ⟨"empty.json"⟩] none) := by decide +kernel
  have hasked : (([⟨"list.json"⟩, ⟨"empty.json"⟩] : List Path).mapM (readLayer shelf.view)).toOption.any
      (fun values => values.any fun layer => !layer.isConfig) = true := by decide +kernel
  obtain ⟨values, hlayers, hsome⟩ := exists_readsLayers hasked
  obtain ⟨layer, hlayer, hconfig⟩ := List.any_eq_true.1 hsome
  have hcode := hall shelf _ none _ _ none c _ values hargs hloads (.cons hpage .nil)
    hlayers ⟨layer, hlayer, by simpa using hconfig⟩
  revert hcode
  decide +kernel

end

end Command

end StepChain
