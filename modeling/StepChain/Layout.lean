import StepChain.Page
/-!
# Layouts

Where sources are searched, where results go and where intermediate results are staged.  `input` is short for a single
root; only one of `input` and `roots` may be given.
-/
namespace StepChain

open Json (Document)

/-- One search root or a list of them. -/
inductive Roots where
  | one (root : Path)
  | many (roots : List Path)
  deriving DecidableEq

structure Layout where
  input : Option Path
  roots : Option Roots
  dest : Path
  staging : Path
  deriving DecidableEq

namespace Roots

def toList : Roots → List Path
  | .one root => [root]
  | .many roots => roots

def toJson : Roots → Json
  | .one root => .string root.text
  | .many roots => Json.ofStrings (roots.map Path.text)

def ofDocument? : Document → Option Roots
  | .string s => s.map fun s => .one ⟨s⟩
  | d => d.strings?.map fun roots => .many (roots.map Path.mk)

end Roots

namespace Layout

/-- Whether a layout can be used, and if not the first thing wrong with it. -/
def check (l : Layout) : Except ConfigFault Unit :=
  if l.input.isSome ∧ l.roots.isSome then .error .rootsConflict
  else if l.dest.isEmpty then .error .noDest
  else if l.staging.isEmpty then .error .noStaging
  else .ok ()

def rootList (l : Layout) : List Path :=
  match l.input with
  | some input => [input]
  | none => (l.roots.map Roots.toList).getD []

/-- The JSON form; `input` and `root` appear only when they are set. -/
def toJson (l : Layout) : Json :=
  .object (Json.Members.ofList
    ((l.input.map fun p => ("input", .string p.text)).toList ++ (l.roots.map fun r => ("root", r.toJson)).toList ++
      [("dest", .string l.dest.text), ("staging", .string l.staging.text)]))

def ofDocument? (d : Document) : Option Layout := do
  match ← d.record? ["input", "root", "dest", "staging"] with
  | [input, root, dest, staging] =>
    return { input := (← Document.optional (Document.nullable Document.string?) none input).map Path.mk
             roots := ← Document.optional (Document.nullable Roots.ofDocument?) none root
             dest := ⟨← Document.required Document.string? dest⟩
             staging := ⟨← Document.required Document.string? staging⟩ }
  | _ => none

def ofJson? (j : Json) : Option Layout := ofDocument? (.ofJson j)

end Layout

end StepChain
