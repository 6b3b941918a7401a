import StepChain.Proofs.Compile.Resolution
import StepChain.Proofs.Wiring.ClosedForm
/-!
# Generated sections by step name

Positions of all blocks write to one object, each to the entry of its step's name.  Read at one name, a run is a fold
over the positions of that name alone (`get?_generate`, `get?_generateJobs`), whatever stands between them.
-/
namespace StepChain

open Json (Object Members)

/-- The section under a name; a name without one has an empty one. -/
def sectionOf (generated : Object) (name : String) : Object := entryMembers (generated.get? name)

def positionsNamed (name : String) (positions : List Position) : List Position :=
  positions.filter (·.step.name == name)

theorem positionsNamed_cons_self (p : Position) (positions : List Position) :
    positionsNamed p.step.name (p :: positions) = p :: positionsNamed p.step.name positions := by
  simp [positionsNamed]

theorem positionsNamed_cons_of_ne {p : Position} {name : String} (h : name ≠ p.step.name) (positions : List Position) :
    positionsNamed name (p :: positions) = positionsNamed name positions := by
  simp [positionsNamed, Ne.symm h]

theorem positionsNamed_eq_nil {name : String} {positions : List Position} (h : name ∉ positions.map (·.step.name)) :
    positionsNamed name positions = [] :=
  List.filter_eq_nil_iff.2 fun p hp heq => h (List.mem_map.2 ⟨p, hp, beq_iff_eq.1 heq⟩)

namespace Flow

variable (flow : Flow) (block : Block)

/-- The section of a step after the positions of a block, of which only those of its name count. -/
def sectionThrough (name : String) (positions : List Position) (current : Object) : Object :=
  (positionsNamed name positions).foldl (fun current p => flow.sectionAfter block p current) current

theorem sectionThrough_cons_self (p : Position) (positions : List Position) (current : Object) :
    flow.sectionThrough block p.step.name (p :: positions) current =
      flow.sectionThrough block p.step.name positions (flow.sectionAfter block p current) := by
  rw [sectionThrough, positionsNamed_cons_self, List.foldl_cons, sectionThrough]

theorem sectionThrough_cons_of_ne {p : Position} {name : String} (h : name ≠ p.step.name)
    (positions : List Position) (current : Object) :
    flow.sectionThrough block name (p :: positions) current = flow.sectionThrough block name positions current := by
  rw [sectionThrough, positionsNamed_cons_of_ne h, sectionThrough]

theorem sectionThrough_of_not_mem {name : String} {positions : List Position}
    (h : name ∉ positions.map (·.step.name)) (current : Object) :
    flow.sectionThrough block name positions current = current := by
  rw [sectionThrough, positionsNamed_eq_nil h, List.foldl_nil]

theorem get?_generatePosition (generated : Object) (p : Position) (name : String) :
    (flow.generatePosition block generated p).get? name =
      if name = p.step.name then some (.object (flow.sectionAfter block p (sectionOf generated name)))
      else generated.get? name := by
  rw [generatePosition, Members.get?_insert, sectionOf]
  by_cases h : name = p.step.name
  · rw [if_pos h, if_pos h, h]
  · rw [if_neg h, if_neg h]

theorem sectionOf_generatePosition_self (generated : Object) (p : Position) :
    sectionOf (flow.generatePosition block generated p) p.step.name =
      flow.sectionAfter block p (sectionOf generated p.step.name) := by
  rw [sectionOf, get?_generatePosition, if_pos rfl]
  rfl

/-- **A block at one name**: the section of a step of the chain collects over the positions of its name, and no other
entry changes. -/
theorem get?_generate (name : String) : ∀ (positions : List Position) (generated : Object),
    (flow.generate block positions generated).get? name =
      if name ∈ positions.map (·.step.name) then
        some (.object (flow.sectionThrough block name positions (sectionOf generated name)))
      else generated.get? name
  | [], _ => rfl
  | p :: positions, generated => by
    have ih := get?_generate name positions (flow.generatePosition block generated p)
    rw [generate] at ih
    rw [generate, List.foldl_cons, ih, List.map_cons]
    by_cases hp : name = p.step.name
    · subst hp
      rw [if_pos List.mem_cons_self, sectionThrough_cons_self, sectionOf_generatePosition_self]
      -- a later position of the name sets the entry again, from what this one left
      by_cases hmem : p.step.name ∈ positions.map (·.step.name)
      · rw [if_pos hmem]
      · rw [if_neg hmem, sectionThrough_of_not_mem flow block hmem, get?_generatePosition, if_pos rfl]
    · have hget : (flow.generatePosition block generated p).get? name = generated.get? name := by
        rw [get?_generatePosition, if_neg hp]
      rw [sectionThrough_cons_of_ne flow block hp, sectionOf, hget, ← sectionOf]
      simp only [List.mem_cons, hp, false_or]

theorem sectionOf_generate (name : String) (positions : List Position) (generated : Object) :
    sectionOf (flow.generate block positions generated) name =
      flow.sectionThrough block name positions (sectionOf generated name) := by
  rw [sectionOf, get?_generate]
  by_cases h : name ∈ positions.map (·.step.name)
  · rw [if_pos h]
    rfl
  · rw [if_neg h, sectionThrough_of_not_mem flow block h, sectionOf]

end Flow

namespace Compiler

variable (c : Compiler) (resolved : Job → List String)

def sectionThrough (name : String) (jobs : List Job) (current : Object) : Object :=
  jobs.foldl (fun current job => c.flow.sectionThrough job.block name (c.positionsOf resolved job) current) current

theorem sectionThrough_cons (name : String) (job : Job) (jobs : List Job) (current : Object) :
    c.sectionThrough resolved name (job :: jobs) current = c.sectionThrough resolved name jobs
      (c.flow.sectionThrough job.block name (c.positionsOf resolved job) current) := rfl

def Touches (c : Compiler) (name : String) (job : Job) : Prop :=
  name ∈ (c.flow.chainOf job.block.kind).map Step.name

instance (c : Compiler) (name : String) (job : Job) : Decidable (c.Touches name job) :=
  inferInstanceAs (Decidable (name ∈ (c.flow.chainOf job.block.kind).map Step.name))

theorem map_name_positionsOf (job : Job) :
    (c.positionsOf resolved job).map (·.step.name) = (c.flow.chainOf job.block.kind).map Step.name := by
  rw [← c.targets.map_step_wire job.block.dest (c.flow.chainOf job.block.kind) (resolved job), List.map_map]
  rfl

theorem sectionThrough_of_untouched {name : String} : ∀ {jobs : List Job}, (∀ job ∈ jobs, ¬ c.Touches name job) →
    ∀ current, c.sectionThrough resolved name jobs current = current
  | [], _, _ => rfl
  | job :: jobs, h, current => by
    have hjob : name ∉ (c.positionsOf resolved job).map (·.step.name) := by
      rw [map_name_positionsOf]
      exact h job List.mem_cons_self
    have ih := sectionThrough_of_untouched (fun j hj => h j (List.mem_cons_of_mem job hj)) current
    rw [sectionThrough] at ih
    rw [sectionThrough, List.foldl_cons, c.flow.sectionThrough_of_not_mem job.block hjob, ih]

/-- **A run at one name**: the section of a step that some block's chain has collects over all blocks, and no other
entry changes. -/
theorem get?_generateJobs (name : String) : ∀ (jobs : List Job) (generated : Object),
    (c.generateJobs resolved jobs generated).get? name =
      if ∃ job ∈ jobs, c.Touches name job then
        some (.object (c.sectionThrough resolved name jobs (sectionOf generated name)))
      else generated.get? name
  | [], _ => by simp [generateJobs]
  | job :: jobs, generated => by
    have ih := get?_generateJobs name jobs (c.flow.generate job.block (c.positionsOf resolved job) generated)
    rw [generateJobs] at ih
    rw [generateJobs, List.foldl_cons, ih, Flow.sectionOf_generate, sectionThrough, sectionThrough, List.foldl_cons]
    by_cases hlater : ∃ job ∈ jobs, c.Touches name job
    · obtain ⟨j, hj, htouch⟩ := hlater
      rw [if_pos ⟨j, hj, htouch⟩, if_pos ⟨j, List.mem_cons_of_mem job hj, htouch⟩]
    · have hrest : ∀ j ∈ jobs, ¬ c.Touches name j := fun j hj htouch => hlater ⟨j, hj, htouch⟩
      have hthrough := c.sectionThrough_of_untouched resolved hrest
      simp only [sectionThrough] at hthrough
      rw [if_neg hlater, hthrough, Flow.get?_generate, map_name_positionsOf]
      have hiff : (∃ j ∈ job :: jobs, c.Touches name j) ↔ c.Touches name job := by
        simp only [List.mem_cons, exists_eq_or_imp, hlater, or_false]
      simp only [hiff]
      rfl

end Compiler

end StepChain
