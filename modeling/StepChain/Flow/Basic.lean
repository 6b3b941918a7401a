import StepChain.Flow.Post
import StepChain.Step.Registry
import StepChain.Text.Blank
/-!
# Flows

`Declarations` give each block type its chain, steps being named by identifier or given as they are, and
post-processors. `Flow.ofDeclarations` looks the identifiers up in a registry; the flow is what compilation reads.  A
block type that is declared again keeps its place and takes the new chain.
-/
namespace StepChain

inductive ChainEntry where
  | id (id : String)
  | step (step : Step)

structure Declarations where
  chains : List (String × List ChainEntry)
  posts : List (String × Post)

namespace Declarations

def empty : Declarations := ⟨[], []⟩

/-- Sets the chain of a block type, in place if it has one and at the end if not. -/
def setChain (blockType : String) (chain : List ChainEntry) :
    List (String × List ChainEntry) → List (String × List ChainEntry)
  | [] => [(blockType, chain)]
  | declared :: rest =>
    if declared.1 = blockType then (blockType, chain) :: rest else declared :: setChain blockType chain rest

def withChain (d : Declarations) (blockType : String) (chain : List ChainEntry) : Declarations :=
  { d with chains := setChain blockType chain d.chains }

def withPost (d : Declarations) (blockType : String) (post : Post) : Declarations :=
  { d with posts := d.posts ++ [(blockType, post)] }

end Declarations

/-- A post-processor together with the block type and the name of the step it follows. -/
structure Follower where
  blockType : String
  step : String
  post : Post

structure Flow where
  chains : List (String × List Step)
  followers : List Follower

namespace Flow

/-- The step that an entry of a block type's chain stands for; one given as it is needs a name that is not blank. -/
def stepOf (registry : Registry) (blockType : String) : ChainEntry → Except ConfigFault Step
  | .id id => registry.find id
  | .step s => if isBlankText s.name then .error (.nameless blockType) else .ok s

/-- A post-processor follows the step that its identifier stands for, or a step of that very name if it is unknown. -/
def followerOf (registry : Registry) (declared : String × Post) : Follower :=
  ⟨declared.1, (registry.nameOf? declared.2.step).getD declared.2.step, declared.2⟩

/-- The flow that is declared; the first entry that stands for no step is the fault. -/
def ofDeclarations (registry : Registry) (d : Declarations) : Except ConfigFault Flow := do
  let chains ← d.chains.mapM fun (blockType, entries) =>
    return (blockType, ← entries.mapM (stepOf registry blockType))
  return ⟨chains, d.posts.map (followerOf registry)⟩

def types (flow : Flow) : List String := flow.chains.map (·.1)

/-- The chain of a block type; empty if it has none. -/
def chainOf (flow : Flow) (blockType : String) : List Step :=
  ((flow.chains.find? (·.1 == blockType)).map (·.2)).getD []

def firstOfEachName : List Step → List Step
  | [] => []
  | s :: rest => s :: (firstOfEachName rest).filter (·.name != s.name)

/-- Every step of the flow once. -/
def distinctSteps (flow : Flow) : List Step := firstOfEachName (flow.chains.flatMap (·.2))

/-- The post-processors that follow a step in blocks of a type, in order of declaration. -/
def postsAfter (flow : Flow) (blockType step : String) : List Post :=
  (flow.followers.filter fun f => f.blockType == blockType && f.step == step).map Follower.post

end Flow

end StepChain
