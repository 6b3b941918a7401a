import StepChain.Page
import StepChain.Path.Normal
/-!
# Searching sources

A reference is searched under the configured roots and then in the page's own directory; the first candidate that
exists is the answer.  A hook may decide before the search.  If nothing exists, the reference is an error in a strict
search and passes through under the first root otherwise.

Existence is a predicate on paths, so a search over a fixed file system is a function.

Main statement: `find_eq_ok`.
-/
namespace StepChain

/-- What a hook is told about a reference. -/
structure Query where
  reference : String
  pageDir : Path
  pageName : String
  blockDest : String
  roots : List Path
  deriving DecidableEq

/-- What a hook decides: a path to take, an error, or to leave the reference to the search. -/
inductive Verdict where
  | override (path : Path)
  | cancel
  | defer
  deriving DecidableEq

abbrev Hook := Query → Verdict

structure Search where
  roots : List Path
  strict : Bool
  hook : Option Hook

namespace Search

def rootsFor (s : Search) (dir : Path) : List Path := s.roots ++ [dir]

/-- The paths that are tried for a reference, in order. -/
def candidates (s : Search) (dir : Path) (reference : String) : List Path :=
  (s.rootsFor dir).map fun root => (root.join ⟨rootless reference⟩).normal

def query (s : Search) (page : Page) (block : Block) (reference : String) : Query :=
  ⟨reference, page.dir, page.fileName, block.dest, s.rootsFor page.dir⟩

/-- What the hook decides; without one every reference is left to the search. -/
def verdict (s : Search) (page : Page) (block : Block) (reference : String) : Verdict :=
  match s.hook with
  | some hook => hook (s.query page block reference)
  | none => .defer

/-- The first candidate that exists; if none does, the first one or an error. -/
def firstPresent (s : Search) (present : Path → Bool) (page : Page) (reference : String) :
    Except SourceFault Path :=
  let tried := s.candidates page.dir reference
  match tried.find? present with
  | some p => .ok p
  | none =>
    if s.strict then .error (.notFound reference page.path) else .ok (tried.head?.getD ⟨rootless reference⟩)

/-- Where a reference leads once the hook has decided about it. -/
def settle (s : Search) (present : Path → Bool) (page : Page) (reference : String) :
    Verdict → Except SourceFault Path
  | .override p => if present p then .ok p else .error (.overrideMissing p)
  | .cancel => .error (.notFound reference page.path)
  | .defer => s.firstPresent present page reference

def find (s : Search) (present : Path → Bool) (page : Page) (block : Block) (reference : String) :
    Except SourceFault Path :=
  s.settle present page reference (s.verdict page block reference)

/-- A path is found where the hook gives it and it exists, or where the hook leaves the reference to the search. -/
theorem find_eq_ok (s : Search) {present : Path → Bool} {page : Page} {block : Block} {reference : String} {p : Path} :
    s.find present page block reference = .ok p ↔
      s.verdict page block reference = .override p ∧ present p = true ∨
        s.verdict page block reference = .defer ∧ s.firstPresent present page reference = .ok p := by
  unfold find
  cases s.verdict page block reference with
  | override q =>
    by_cases hq : present q = true
    · simp only [settle, hq, if_true, Except.ok.injEq, Verdict.override.injEq, reduceCtorEq, false_and, or_false]
      exact ⟨fun heq => ⟨heq, heq ▸ hq⟩, fun heq => heq.1⟩
    · simp only [settle, hq, if_false, reduceCtorEq, Verdict.override.injEq, false_and, or_false, false_iff, not_and]
      exact fun heq => heq ▸ hq
  | cancel => simp [settle]
  | defer => simp [settle]

end Search

end StepChain
