import Mathlib.Data.List.Induction
import StepChain.Proofs.Flow.Declared
import StepChain.Proofs.Registry.History
/-!
# Which flow is built

Declarations that replace one another leave each block type in the place of its first declaration with the chain of its
last (`Declarations.chains_ofList`).  These chains are read entry by entry: an entry stands for a step or is a fault
(`Flow.stepOf_eq_ok`, `Flow.stepOf_eq_error`), and the first fault is that of the whole
(`Flow.faultOf_ofDeclarations`).  So a flow is built exactly if no entry that is left is at fault, and then it has the
steps that the entries stand for, in their places (`Flow.ofDeclarations_exact`).
-/
namespace StepChain

theorem eraseDups_concat {α : Type} [BEq α] [LawfulBEq α] (xs : List α) (x : α) :
    (xs ++ [x]).eraseDups = if x ∈ xs then xs.eraseDups else xs.eraseDups ++ [x] := by
  rw [List.eraseDups_append, List.removeAll]
  by_cases h : x ∈ xs
  · simp [h]
  · simp [h, List.eraseDups_cons]

theorem nodup_eraseDups {α : Type} [BEq α] [LawfulBEq α] (xs : List α) : xs.eraseDups.Nodup := by
  induction xs using List.reverseRecOn with
  | nil => exact .nil
  | append_singleton xs x ih =>
    rw [eraseDups_concat]
    by_cases h : x ∈ xs
    · rwa [if_pos h]
    · rw [if_neg h]
      refine List.nodup_append.2 ⟨ih, by simp, fun a ha b hb => ?_⟩
      rintro rfl
      exact h (List.mem_singleton.1 hb ▸ List.mem_eraseDups.1 ha)

/-- An association list that has each key once is made of its keys, each with what is found for it. -/
theorem eq_map_find?_of_nodup {β : Type} : ∀ {entries : List (String × List β)}, (entries.map (·.1)).Nodup →
    entries = (entries.map (·.1)).map fun k => (k, ((entries.find? (·.1 == k)).map (·.2)).getD [])
  | [], _ => rfl
  | first :: rest, h => by
    rw [List.map_cons, List.nodup_cons] at h
    have ih := eq_map_find?_of_nodup h.2
    rw [List.map_cons, List.map_cons, List.find?_cons_of_pos (by simp)]
    refine congrArg (first :: ·) (ih.trans (List.map_congr_left fun k hk => ?_))
    rw [List.find?_cons_of_neg]
    simpa using fun heq : first.1 = k => h.1 (heq ▸ hk)

/-! ### What is declared -/

namespace Declaration

def type? : Declaration → Option String
  | chain blockType _ => some blockType
  | post _ _ => none

/-- The block types that chains are declared for, each once, in order of their first declaration. -/
def types (ds : List Declaration) : List String := (ds.filterMap type?).eraseDups

/-- The entries that count, each with its block type: those of the chain declared last for each type, in order. -/
def finalEntries (ds : List Declaration) : List (String × ChainEntry) :=
  keyed ((types ds).map fun blockType => (blockType, lastChain blockType ds))

end Declaration

namespace Declarations

open Declaration (lastChain finalEntries)

/-- The entries of all chains in order, each with its block type. -/
def entries (d : Declarations) : List (String × ChainEntry) := keyed d.chains

theorem map_fst_setChain (blockType : String) (chain : List ChainEntry) :
    ∀ chains : List (String × List ChainEntry), (setChain blockType chain chains).map (·.1) =
      if blockType ∈ chains.map (·.1) then chains.map (·.1) else chains.map (·.1) ++ [blockType]
  | [] => rfl
  | declared :: chains => by
    have ih := map_fst_setChain blockType chain chains
    rw [setChain]
    by_cases hsame : declared.1 = blockType
    · simp [hsame]
    · rw [if_neg hsame, List.map_cons, ih, List.map_cons]
      by_cases hmem : blockType ∈ chains.map (·.1)
      · rw [if_pos hmem, if_pos (List.mem_cons_of_mem _ hmem)]
      · rw [if_neg hmem, if_neg (by simpa [Ne.symm hsame] using hmem), List.cons_append]

/-- **A block type keeps the place of its first declaration.** -/
theorem map_fst_chains_ofList (ds : List Declaration) : (ofList ds).chains.map (·.1) = Declaration.types ds := by
  -- from the end, where the last declaration meets what all before it have left
  induction ds using List.reverseRecOn with
  | nil => rfl
  | append_singleton ds declaration ih =>
    rw [ofList, List.foldl_append, ← ofList, Declaration.types, List.filterMap_append, List.foldl_cons, List.foldl_nil]
    cases declaration with
    | post blockType post =>
      have hnone : [Declaration.post blockType post].filterMap Declaration.type? = [] := rfl
      rw [hnone, List.append_nil]
      exact ih
    | chain blockType entries =>
      have hone : [Declaration.chain blockType entries].filterMap Declaration.type? = [blockType] := rfl
      rw [hone, eraseDups_concat, declare, withChain, map_fst_setChain, ih, Declaration.types]
      simp only [List.mem_eraseDups]

/-- **What declarations leave**: each block type in the place of its first, with the chain of its last. -/
theorem chains_ofList (ds : List Declaration) :
    (ofList ds).chains = (Declaration.types ds).map fun blockType => (blockType, lastChain blockType ds) := by
  have hnodup : ((ofList ds).chains.map (·.1)).Nodup := by
    rw [map_fst_chains_ofList]
    exact nodup_eraseDups _
  rw [eq_map_find?_of_nodup hnodup, map_fst_chains_ofList]
  exact List.map_congr_left fun blockType _ => congrArg (blockType, ·) (entriesOf_ofList ds blockType)

theorem entries_ofList (ds : List Declaration) : (ofList ds).entries = finalEntries ds := by
  rw [entries, chains_ofList, finalEntries]

end Declarations

/-! ### What entries stand for -/

namespace ChainEntry

/-- The registry knows the identifier, or the step that is given has a name that is not blank. -/
def IsValid (registry : Registry) : ChainEntry → Prop
  | id text => registry.knows text = true
  | step s => isBlankText s.name = false

/-- The step that the registry has under the name that the identifier stands for, or the step that is given. -/
def StandsFor (registry : Registry) : ChainEntry → Step → Prop
  | id text, s => ∃ name, registry.nameOf? text = some name ∧ registry.step? name = some s ∧ s.name = name
  | step given, s => s = given

/-- What is wrong with an entry of a block type's chain that stands for no step. -/
def fault (blockType : String) : ChainEntry → ConfigFault
  | id text => .unknown text
  | step _ => .nameless blockType

end ChainEntry

namespace Flow

variable {registry : Registry} {blockType : String} {entry : ChainEntry}

theorem stepOf_eq_ok (hregistry : registry.Reachable) {s : Step} :
    stepOf registry blockType entry = .ok s ↔ entry.IsValid registry ∧ entry.StandsFor registry s := by
  cases entry with
  | id text =>
    rw [stepOf, ChainEntry.IsValid, ChainEntry.StandsFor, hregistry.consistent.knows_iff_nameOf?, Registry.find_eq_ok]
    constructor
    · rintro ⟨name, hname, hstep⟩
      exact ⟨⟨name, hname⟩, name, hname, hstep, Registry.name_of_step? hstep⟩
    · rintro ⟨-, name, hname, hstep, -⟩
      exact ⟨name, hname, hstep⟩
  | step given =>
    cases hblank : isBlankText given.name <;>
      simp [stepOf, ChainEntry.IsValid, ChainEntry.StandsFor, hblank, eq_comm]

theorem stepOf_eq_error (hregistry : registry.Reachable) {e : ConfigFault} :
    stepOf registry blockType entry = .error e ↔ ¬ entry.IsValid registry ∧ entry.fault blockType = e := by
  cases entry with
  | id text =>
    rw [ChainEntry.IsValid, hregistry.consistent.knows_iff_find, stepOf, ChainEntry.fault, Registry.find]
    cases (registry.nameOf? text).bind registry.step? <;> simp
  | step given => cases hblank : isBlankText given.name <;> simp [stepOf, ChainEntry.IsValid, ChainEntry.fault, hblank]

theorem faultOf_stepOf (hregistry : registry.Reachable) :
    faultOf (stepOf registry blockType entry) = none ↔ entry.IsValid registry := by
  rw [Option.eq_none_iff_forall_ne_some]
  simp only [ne_eq, faultOf_eq_some, stepOf_eq_error hregistry]
  by_cases hvalid : entry.IsValid registry <;> simp [hvalid]

/-- **The first entry at fault decides**, block types in order and the entries of each from its first. -/
theorem faultOf_ofDeclarations (registry : Registry) (d : Declarations) :
    faultOf (ofDeclarations registry d) = d.entries.findSome? fun x => faultOf (stepOf registry x.1 x.2) := by
  -- the post-processors, which come after the chains, never fail
  have hchains : faultOf (ofDeclarations registry d) = faultOf (d.chains.mapM fun c =>
      (do return (c.1, ← c.2.mapM (stepOf registry c.1)) : Except ConfigFault (String × List Step))) :=
    faultOf_map _ _
  rw [hchains, faultOf_mapM_groups, Declarations.entries]

theorem ofDeclarations_eq_ok_iff (hregistry : registry.Reachable) (d : Declarations) :
    (∃ flow, ofDeclarations registry d = .ok flow) ↔ ∀ x ∈ d.entries, x.2.IsValid registry := by
  rw [← faultOf_eq_none, faultOf_ofDeclarations, List.findSome?_eq_none_iff]
  simp only [faultOf_stepOf hregistry]

theorem ofDeclarations_eq_error_iff (hregistry : registry.Reachable) (d : Declarations) (e : ConfigFault) :
    ofDeclarations registry d = .error e ↔ ∃ before blockType entry after,
      d.entries = before ++ (blockType, entry) :: after ∧ (∀ x ∈ before, x.2.IsValid registry) ∧
        ¬ entry.IsValid registry ∧ entry.fault blockType = e := by
  rw [← faultOf_eq_some, faultOf_ofDeclarations, List.findSome?_eq_some_iff]
  simp only [faultOf_stepOf hregistry, faultOf_eq_some, stepOf_eq_error hregistry]
  constructor
  · rintro ⟨before, ⟨blockType, entry⟩, after, hsplit, hfault, hbefore⟩
    exact ⟨before, blockType, entry, after, hsplit, hbefore, hfault⟩
  · rintro ⟨before, blockType, entry, after, hsplit, hbefore, hfault⟩
    exact ⟨before, (blockType, entry), after, hsplit, hfault, hbefore⟩

theorem types_of_ofDeclarations {d : Declarations} {flow : Flow} (h : ofDeclarations registry d = .ok flow) :
    flow.types = d.chains.map (·.1) := by
  obtain ⟨hbuilt, -⟩ := built_of_ofDeclarations h
  exact (map_eq_of_forall₂ (fun _ _ hchain => hchain.1) hbuilt).symm

theorem chainOf_of_not_mem_types {flow : Flow} (h : blockType ∉ flow.types) : flow.chainOf blockType = [] := by
  rw [chainOf, find?_eq_none_of_not_mem h]
  rfl

/-- **A flow is exactly what is declared.**  Of several chains for a block type the last counts, in the place of the
first.  A flow is built exactly if every entry that counts is valid; otherwise the first that is not is the fault, and
chains that were replaced have no say in it.  A flow that is built has the block types in that order.  The chain of a
type has in each place the step that the entry there stands for, and a type without a declaration has no steps. -/
theorem ofDeclarations_exact (hregistry : registry.Reachable) (ds : List Declaration) :
    (Declaration.types ds).Nodup ∧
    (Declarations.ofList ds).chains =
      (Declaration.types ds).map (fun blockType => (blockType, Declaration.lastChain blockType ds)) ∧
    ((∃ flow, ofDeclarations registry (.ofList ds) = .ok flow) ↔
      ∀ x ∈ Declaration.finalEntries ds, x.2.IsValid registry) ∧
    (∀ e, ofDeclarations registry (.ofList ds) = .error e ↔ ∃ before blockType entry after,
      Declaration.finalEntries ds = before ++ (blockType, entry) :: after ∧ (∀ x ∈ before, x.2.IsValid registry) ∧
        ¬ entry.IsValid registry ∧ entry.fault blockType = e) ∧
    ∀ flow, ofDeclarations registry (.ofList ds) = .ok flow → flow.types = Declaration.types ds ∧
      (∀ blockType, List.Forall₂ (ChainEntry.StandsFor registry) (Declaration.lastChain blockType ds)
        (flow.chainOf blockType)) ∧
      ∀ blockType, blockType ∉ Declaration.types ds → flow.chainOf blockType = [] := by
  have hentries := Declarations.entries_ofList ds
  refine ⟨nodup_eraseDups _, Declarations.chains_ofList ds, ?_, ?_, fun flow hflow => ?_⟩
  · rw [← hentries, ofDeclarations_eq_ok_iff hregistry]
  · intro e
    rw [← hentries, ofDeclarations_eq_error_iff hregistry]
  · have htypes := types_of_ofDeclarations hflow
    rw [Declarations.map_fst_chains_ofList] at htypes
    refine ⟨htypes, fun blockType => ?_, fun blockType h => chainOf_of_not_mem_types (htypes ▸ h)⟩
    have hsteps := forall₂_chainOf hflow blockType
    rw [Declarations.entriesOf_ofList] at hsteps
    exact hsteps.imp fun entry step hstep => ((stepOf_eq_ok hregistry).1 hstep).2

/-- Scripts are declared twice, first with a step that there is not; styles have an alias and a step of their own. -/
def redeclared : List Declaration :=
  [.chain "js" [.id "sass"], .chain "css" [.id "min", .step (.standard "mark" .merged)],
    .post "js" ⟨"concat", .options .null⟩, .chain "js" [.id "concat", .id "uglifyjs"]]

/-- The chain that was replaced does no harm.  Where styles get a step without a name, it comes before the scripts'
identifier that is unknown. -/
theorem ofDeclarations_exact_redeclared :
    (∃ flow, ofDeclarations (Registry.standard.after [.addAlias "min" "cssmin"]) (.ofList redeclared) = .ok flow ∧
      flow.types = ["js", "css"] ∧ flow.chainOf "html" = [] ∧
      List.Forall₂ (ChainEntry.StandsFor (Registry.standard.after [.addAlias "min" "cssmin"]))
        [.id "min", .step (.standard "mark" .merged)] (flow.chainOf "css")) ∧
    ofDeclarations .standard (.ofList [.chain "css" [], .chain "js" [.id "sass"], .chain "css" [.id "concat",
      .step (.standard " " .merged)]]) = .error (.nameless "css") := by
  have hregistry := Registry.Reachable.standard.after [.addAlias "min" "cssmin"]
  constructor
  · obtain ⟨-, -, hbuilt, -, hflow⟩ := ofDeclarations_exact hregistry redeclared
    have hfinal : Declaration.finalEntries redeclared = [("js", .id "concat"), ("js", .id "uglifyjs"),
        ("css", .id "min"), ("css", .step (.standard "mark" .merged))] := rfl
    obtain ⟨flow, hok⟩ := hbuilt.2 (by
      rw [hfinal]
      simp only [List.forall_mem_cons]
      exact ⟨rfl, rfl, rfl, rfl, by simp⟩)
    obtain ⟨htypes, hsteps, hnone⟩ := hflow flow hok
    exact ⟨flow, hok, htypes.trans rfl, hnone "html" (by decide), hsteps "css"⟩
  · obtain ⟨-, -, -, hfault, -⟩ := ofDeclarations_exact .standard [.chain "css" [], .chain "js" [.id "sass"],
      .chain "css" [.id "concat", .step (.standard " " .merged)]]
    rw [hfault]
    refine ⟨[("css", .id "concat")], "css", .step (.standard " " .merged), [("js", .id "sass")], rfl, ?_, ?_, rfl⟩
    · simp only [List.forall_mem_cons]
      exact ⟨rfl, by simp⟩
    · rw [ChainEntry.IsValid]
      decide

end Flow
end StepChain
