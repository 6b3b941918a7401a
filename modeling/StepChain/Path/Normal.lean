import StepChain.Path.Basic
/-!
# Normal form

`Path.walk` is the meaning of a path: where it leads from a working directory, given as the list of names from the
root. `Path.normal` writes the shortest path with the same meaning: `.` alone, or an optional slash or run of `..`
followed by names.
-/
namespace StepChain

def Component.walk (dir : List String) : Component → List String
  | .root => []
  | .here => dir
  | .up => dir.dropLast
  | .name s => dir ++ [s]

/-- One component taken into a normal form, whose last component comes first: `..` takes a name away, stays at the
root and is kept elsewhere. -/
def Component.settle : List Component → Component → List Component
  | stack, .here => stack
  | .name _ :: rest, .up => rest
  | .root :: rest, .up => .root :: rest
  | stack, c => c :: stack

namespace Path

/-- Where a path leads from `dir`. -/
def walk (p : Path) (dir : List String) : List String := p.components.foldl Component.walk dir

def normalComponents (p : Path) : List Component := (p.components.foldl Component.settle []).reverse

def ofComponent : Component → Path
  | .root => ⟨"/"⟩
  | .here => ⟨"."⟩
  | .up => ⟨".."⟩
  | .name s => ⟨s⟩

/-- The path made of these components; `.` if there is none. -/
def ofComponents : List Component → Path
  | [] => ⟨"."⟩
  | cs => cs.foldl (fun p c => p.join (ofComponent c)) ⟨""⟩

def normal (p : Path) : Path := ofComponents p.normalComponents

end Path

end StepChain
