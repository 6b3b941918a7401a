/-!
# Paths

A path is a text whose segments stand between slashes.  `Path.components` is what the segments mean: a leading slash
is the root, empty segments and `.` say nothing, `..` goes up, anything else is a name; a `.` at the very start of a
relative path is kept, so `./a` and `a` differ as component lists though not in meaning.

- `Path.join` puts one path after another, an absolute one replacing what came before;
- `Path.fileName?` is the last component if it is a name, and `Path.parent` the text before the last component.
-/
namespace StepChain

structure Path where
  text : String
  deriving DecidableEq

inductive Component where
  | root
  | here
  | up
  | name (text : String)
  deriving DecidableEq

namespace Path

instance : Inhabited Path := ⟨⟨""⟩⟩

/-- The pieces of a text between its slashes; always at least one. -/
def splitSlashes : List Char → List (List Char)
  | [] => [[]]
  | c :: rest =>
    if c = '/' then [] :: splitSlashes rest
    else
      match splitSlashes rest with
      | piece :: pieces => (c :: piece) :: pieces
      | [] => [[c]]

def segments (p : Path) : List String := (splitSlashes p.text.toList).map String.ofList

def isEmpty (p : Path) : Bool := p.text.toList.isEmpty

def isAbsolute (p : Path) : Bool := p.text.toList.head? == some '/'

/-- What a segment says, if it says anything. -/
def componentOf? (segment : String) : Option Component :=
  if segment = "" ∨ segment = "." then none
  else if segment = ".." then some .up
  else some (.name segment)

def components (p : Path) : List Component :=
  if p.isAbsolute then .root :: p.segments.filterMap componentOf?
  else
    match p.segments with
    | "." :: rest => .here :: rest.filterMap componentOf?
    | segments => segments.filterMap componentOf?

/-- `other` as seen from `p`: an absolute path stands on its own, any other is written after a slash. -/
def join (p other : Path) : Path :=
  if other.isAbsolute ∨ p.isEmpty then other
  else if p.text.toList.getLast? = some '/' then ⟨p.text ++ other.text⟩
  else ⟨p.text ++ "/" ++ other.text⟩

/-- The name a path ends with, if its last component is a name. -/
def fileName? (p : Path) : Option String :=
  match p.components.getLast? with
  | some (.name s) => some s
  | _ => none

/-- Drops the segments that say nothing from a reversed list of segments; the first segment of a relative path says
something even if it is `.`. -/
def dropSilent : List String → List String
  | [] => []
  | s :: before => if s = "" ∨ (s = "." ∧ before ≠ []) then dropSilent before else s :: before

/-- The path without its last component: the text up to the end of the component before it.  The root and the empty
path have none. -/
def parent? (p : Path) : Option Path :=
  match dropSilent p.segments.reverse with
  | [] => none
  | _ :: before =>
    match dropSilent before with
    | [] => some ⟨if p.isAbsolute then "/" else ""⟩
    | kept => some ⟨"/".intercalate kept.reverse⟩

def parent (p : Path) : Path := p.parent?.getD ⟨""⟩

end Path

/-- A reference without the slashes and backslashes at its start. -/
def rootless (reference : String) : String :=
  String.ofList (reference.toList.dropWhile (fun c => c = '/' ∨ c = '\\'))

end StepChain
