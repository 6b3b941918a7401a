import StepChain.Flow.Basic
import StepChain.Proofs.Traversal
/-!
# From declarations to flows

Declarations come one after another, and what counts for a block type is the chain declared last
(`Declarations.entriesOf_ofList`).  In the flow every entry of that chain has become a step, place by place
(`Flow.forall₂_chainOf`), and every post-processor follows the name that its identifier stands for
(`Flow.mem_postsAfter`).
-/
namespace StepChain

/-- One declaration: the chain of a block type, or a post-processor for one. -/
inductive Declaration where
  | chain (blockType : String) (entries : List ChainEntry)
  | post (blockType : String) (post : Post)

namespace Declaration

def chainFor? (blockType : String) : Declaration → Option (List ChainEntry)
  | chain declared entries => if declared = blockType then some entries else none
  | post _ _ => none

def posted? : Declaration → Option (String × Post)
  | chain _ _ => none
  | post blockType p => some (blockType, p)

/-- The chain declared last for a block type; empty if none is. -/
def lastChain (blockType : String) (ds : List Declaration) : List ChainEntry :=
  (ds.filterMap (chainFor? blockType)).getLast?.getD []

end Declaration

namespace Declarations

open Declaration (chainFor? posted? lastChain)

def declare (d : Declarations) : Declaration → Declarations
  | .chain blockType entries => d.withChain blockType entries
  | .post blockType post => d.withPost blockType post

def ofList (ds : List Declaration) : Declarations := ds.foldl declare empty

def entriesOf (d : Declarations) (blockType : String) : List ChainEntry :=
  ((d.chains.find? (·.1 == blockType)).map (·.2)).getD []

theorem find?_setChain (blockType : String) (chain : List ChainEntry) (other : String) :
    ∀ chains : List (String × List ChainEntry), (setChain blockType chain chains).find? (·.1 == other) =
      if blockType = other then some (blockType, chain) else chains.find? (·.1 == other)
  | [] => by by_cases h : blockType = other <;> simp [setChain, h]
  | declared :: chains => by
    have ih := find?_setChain blockType chain other chains
    rw [setChain]
    by_cases hsame : declared.1 = blockType
    · rw [if_pos hsame]
      by_cases h : blockType = other
      · rw [if_pos h, List.find?_cons_of_pos (by simpa using h)]
      · rw [if_neg h, List.find?_cons_of_neg (by simpa using h), List.find?_cons_of_neg (by simpa [hsame] using h)]
    · rw [if_neg hsame]
      by_cases hfirst : declared.1 = other
      · have hne : blockType ≠ other := fun h => hsame (hfirst.trans h.symm)
        rw [if_neg hne, List.find?_cons_of_pos (by simpa using hfirst), List.find?_cons_of_pos (by simpa using hfirst)]
      · rw [List.find?_cons_of_neg (by simpa using hfirst), List.find?_cons_of_neg (by simpa using hfirst), ih]

theorem entriesOf_declare (d : Declarations) (declaration : Declaration) (blockType : String) :
    (d.declare declaration).entriesOf blockType = (chainFor? blockType declaration).getD (d.entriesOf blockType) := by
  cases declaration with
  | chain declared entries =>
    rw [declare, withChain, entriesOf, find?_setChain, chainFor?]
    by_cases h : declared = blockType
    · rw [if_pos h, if_pos h]
      rfl
    · rw [if_neg h, if_neg h]
      rfl
  | post _ _ => rfl

theorem entriesOf_foldl_declare (blockType : String) : ∀ (ds : List Declaration) (d : Declarations),
    (ds.foldl declare d).entriesOf blockType =
      (ds.filterMap (chainFor? blockType)).getLast?.getD (d.entriesOf blockType)
  | [], _ => rfl
  | declaration :: ds, d => by
    rw [List.foldl_cons, entriesOf_foldl_declare blockType ds, entriesOf_declare]
    cases h : chainFor? blockType declaration with
    | none => rw [List.filterMap_cons_none h, Option.getD_none]
    | some entries => rw [List.filterMap_cons_some h, List.getLast?_cons, Option.getD_some, Option.getD_some]

/-- **The chain declared last counts.** -/
theorem entriesOf_ofList (ds : List Declaration) (blockType : String) :
    (ofList ds).entriesOf blockType = lastChain blockType ds :=
  entriesOf_foldl_declare blockType ds empty

theorem posts_foldl_declare : ∀ (ds : List Declaration) (d : Declarations),
    (ds.foldl declare d).posts = d.posts ++ ds.filterMap posted?
  | [], d => (List.append_nil d.posts).symm
  | declaration :: ds, d => by
    rw [List.foldl_cons, posts_foldl_declare ds]
    cases declaration with
    | chain blockType entries => rfl
    | post blockType post => exact List.append_assoc d.posts [(blockType, post)] _

theorem mem_posts_ofList {ds : List Declaration} {blockType : String} {post : Post} :
    (blockType, post) ∈ (ofList ds).posts ↔ .post blockType post ∈ ds := by
  rw [ofList, posts_foldl_declare]
  constructor
  · intro h
    obtain ⟨declaration, hmem, hposted⟩ := List.mem_filterMap.1 h
    cases declaration with
    | chain _ _ => cases hposted
    | post _ _ => cases hposted; exact hmem
  · exact fun h => List.mem_filterMap.2 ⟨_, h, rfl⟩

end Declarations

namespace Flow

variable {registry : Registry} {d : Declarations} {flow : Flow}

/-- A chain of the flow has the block type of its declaration, and a step for each entry. -/
def Built (registry : Registry) (declared : String × List ChainEntry) (built : String × List Step) : Prop :=
  declared.1 = built.1 ∧
    List.Forall₂ (fun entry step => stepOf registry declared.1 entry = .ok step) declared.2 built.2

theorem built_of_ofDeclarations (h : ofDeclarations registry d = .ok flow) :
    List.Forall₂ (Built registry) d.chains flow.chains ∧ flow.followers = d.posts.map (followerOf registry) := by
  obtain ⟨chains, hchains, h⟩ := bind_eq_ok.1 h
  cases h
  refine ⟨(forall₂_of_mapM hchains).imp fun declared built hbuilt => ?_, rfl⟩
  obtain ⟨steps, hsteps, hbuilt⟩ := bind_eq_ok.1 hbuilt
  cases hbuilt
  exact ⟨rfl, forall₂_of_mapM hsteps⟩

theorem forall₂_find? (kind : String) {chains : List (String × List ChainEntry)} {built : List (String × List Step)}
    (h : List.Forall₂ (Built registry) chains built) :
    List.Forall₂ (fun entry step => stepOf registry kind entry = .ok step)
      (((chains.find? (·.1 == kind)).map (·.2)).getD []) (((built.find? (·.1 == kind)).map (·.2)).getD []) :=
  forall₂_getD_of_rel (rel_find?_of_forall₂
    (R := fun kind => List.Forall₂ fun entry step => stepOf registry kind entry = .ok step) h kind)

/-- **Every entry of a block type's chain becomes a step in its place.** -/
theorem forall₂_chainOf (h : ofDeclarations registry d = .ok flow) (kind : String) :
    List.Forall₂ (fun entry step => stepOf registry kind entry = .ok step) (d.entriesOf kind) (flow.chainOf kind) :=
  forall₂_find? kind (built_of_ofDeclarations h).1

/-- **A post-processor follows the name that its identifier stands for**, or that very name if it stands for none. -/
theorem mem_postsAfter (h : ofDeclarations registry d = .ok flow) {kind step : String} {post : Post} :
    post ∈ flow.postsAfter kind step ↔
      (kind, post) ∈ d.posts ∧ (registry.nameOf? post.step).getD post.step = step := by
  obtain ⟨-, hfollowers⟩ := built_of_ofDeclarations h
  rw [postsAfter, hfollowers]
  simp only [List.mem_map, List.mem_filter, Bool.and_eq_true, beq_iff_eq]
  constructor
  · rintro ⟨_, ⟨⟨declared, hmem, rfl⟩, rfl, rfl⟩, rfl⟩
    exact ⟨hmem, rfl⟩
  · rintro ⟨hmem, hstep⟩
    exact ⟨_, ⟨⟨_, hmem, rfl⟩, rfl, hstep⟩, rfl⟩

end Flow

end StepChain
