import StepChain.Path.Normal
/-!
# File trees

A tree of directories and files with a working directory.  Looking a path up follows its segments one by one, as an
operating system does: every segment, also an empty one or `.` at the end, needs a directory to start from, and `..`
goes to the directory above.  So `a/../b` is found only if `a` is a directory, unlike the normal form of that path.

A path that is empty or too long, holds a NUL or has a name that is too long leads nowhere.
-/
namespace StepChain

inductive FileTree.Entry where
  | directory
  | file (content : ByteArray)

/-- Entries by the names that lead to them from the root; the root itself is always a directory. -/
structure FileTree where
  entries : List (List String × FileTree.Entry)
  cwd : List String

namespace FileTree

def maxNameBytes : Nat := 255

def maxPathBytes : Nat := 4095

def entry? (t : FileTree) (place : List String) : Option Entry :=
  if place.isEmpty then some .directory else (t.entries.find? (·.1 == place)).map (·.2)

def isDirectory (t : FileTree) (place : List String) : Bool :=
  match t.entry? place with
  | some .directory => true
  | _ => false

def isName (segment : String) : Bool := !(segment == "" || segment == "." || segment == "..")

/-- One segment followed from a place. -/
def follow? (t : FileTree) (place : List String) (segment : String) : Option (List String) :=
  if !t.isDirectory place then none
  else if segment = "" ∨ segment = "." then some place
  else if segment = ".." then some place.dropLast
  else
    let there := place ++ [segment]
    if segment.utf8ByteSize ≤ maxNameBytes ∧ (t.entry? there).isSome then some there else none

def isLookable (p : Path) : Bool :=
  !p.isEmpty && !p.text.toList.contains '\x00' && p.text.utf8ByteSize ≤ maxPathBytes

/-- Where relative segments start. -/
def start (t : FileTree) (p : Path) : List String := if p.isAbsolute then [] else t.cwd

/-- The place of the entry that a path leads to. -/
def place? (t : FileTree) (p : Path) : Option (List String) :=
  if isLookable p then p.segments.foldlM t.follow? (t.start p) else none

def contains (t : FileTree) (p : Path) : Bool := (t.place? p).isSome

def bytes? (t : FileTree) (p : Path) : Option ByteArray := do
  match ← t.entry? (← t.place? p) with
  | .file content => return content
  | .directory => none

def text? (t : FileTree) (p : Path) : Option String := (t.bytes? p).bind String.fromUTF8?

def set (t : FileTree) (place : List String) (entry : Entry) : FileTree :=
  { t with entries := (place, entry) :: t.entries.filter (·.1 != place) }

/-- The place a new file would have: a name in a directory that exists. -/
def newPlace? (t : FileTree) (p : Path) : Option (List String) := do
  guard (isLookable p)
  let name ← p.segments.getLast?
  let parent ← p.segments.dropLast.foldlM t.follow? (t.start p)
  guard (isName name ∧ name.utf8ByteSize ≤ maxNameBytes ∧ t.isDirectory parent)
  return parent ++ [name]

/-- Writes a file: over the one that the path leads to, or a new one. -/
def write? (t : FileTree) (p : Path) (content : ByteArray) : Option FileTree :=
  match t.place? p with
  | some place => if t.isDirectory place then none else some (t.set place (.file content))
  | none => (t.newPlace? p).map fun place => t.set place (.file content)

/-- Follows segments from a place and makes a directory for each name that is not there; it ends where no directory can
be made. -/
def makeDirectoriesFrom (t : FileTree) (place : List String) : List String → FileTree
  | [] => t
  | segment :: rest =>
    match t.follow? place segment with
    | some next => t.makeDirectoriesFrom next rest
    | none =>
      let there := place ++ [segment]
      if t.isDirectory place ∧ isName segment ∧ segment.utf8ByteSize ≤ maxNameBytes then
        (t.set there .directory).makeDirectoriesFrom there rest
      else t

/-- Makes every directory that a path names on its way, those that `..` leaves again included. -/
def makeDirectories (t : FileTree) (p : Path) : FileTree :=
  if isLookable p then t.makeDirectoriesFrom (t.start p) p.segments else t

/-- Puts a file or, with no content, a directory where a path leads to, with all directories on the way. -/
def put (t : FileTree) (p : Path) (content : Option ByteArray) : FileTree :=
  match content with
  | some content =>
    let t := t.makeDirectories p.parent
    (t.write? p content).getD t
  | none => t.makeDirectories p

/-- Whether a path ends with a name, slashes at its end aside. -/
def endsInName (p : Path) : Bool := ((p.segments.filter (· ≠ "")).getLast?).any isName

/-- Takes away what a path leads to, with everything in it.  A directory goes only by its name: one that `.` or `..`
leads to just loses what is in it. -/
def remove (t : FileTree) (p : Path) : FileTree :=
  match t.place? p with
  | some place =>
    { t with entries := t.entries.filter fun e => !place.isPrefixOf e.1 || (e.1 == place && !endsInName p) }
  | none => t

/-- A tree with nothing but a working directory. -/
def ofDirectory (cwd : List String) : FileTree := makeDirectoriesFrom ⟨[], cwd⟩ [] cwd

end FileTree

end StepChain
