import StepChain.Json.Document
import StepChain.Step.Basic
import StepChain.Fault
/-!
# Pages and their blocks

A page is a file that declares blocks of assets; a block has a type, a destination and references to its sources.
References are searched last in the directory of their page.

Both have a JSON form: `toJson` writes it and `ofDocument?` reads it, as an object or as an array of the fields in
order.
-/
namespace StepChain

open Json (Document)

structure Block where
  kind : String
  dest : String
  src : List String
  deriving DecidableEq

structure Page where
  path : Path
  dir : Path
  blocks : List Block
  deriving DecidableEq

namespace Block

def toJson (b : Block) : Json :=
  .object (Json.Members.ofList [("type", .string b.kind), ("dest", .string b.dest), ("src", Json.ofStrings b.src)])

def ofDocument? (d : Document) : Option Block := do
  match ← d.record? ["type", "dest", "src"] with
  | [kind, dest, src] =>
    return { kind := ← Document.required Document.string? kind
             dest := ← Document.required Document.string? dest
             src := ← Document.optional Document.strings? [] src }
  | _ => none

def ofJson? (j : Json) : Option Block := ofDocument? (.ofJson j)

end Block

namespace Mapping

def toJson (m : Mapping) : Json :=
  .object (Json.Members.ofList [("src", Json.ofStrings m.src), ("dest", .string m.dest)])

def ofDocument? (d : Document) : Option Mapping := do
  match ← d.record? ["src", "dest"] with
  | [src, dest] =>
    return { src := ← Document.required Document.strings? src, dest := ← Document.required Document.string? dest }
  | _ => none

def ofJson? (j : Json) : Option Mapping := ofDocument? (.ofJson j)

end Mapping

namespace Step.Mode

def text : Step.Mode → String
  | .merged => "merged"
  | .perSource => "per_source"

def ofText? (s : String) : Option Step.Mode :=
  if s = "merged" then some .merged else if s = "per_source" then some .perSource else none

/-- Reads a mode: its name, or an object with the name as its only key and no value. -/
def ofJson? : Json → Option Step.Mode
  | .string s => ofText? s
  | .object ms =>
    match ms.toList with
    | [(name, .null)] => ofText? name
    | _ => none
  | _ => none

end Step.Mode

namespace Page

/-- A page in the directory that its path names. -/
def ofPath (path : Path) (blocks : List Block) : Page := ⟨path, path.parent, blocks⟩

/-- The file name of a page; empty if its path has none. -/
def fileName (p : Page) : String := p.path.fileName?.getD ""

def toJson (p : Page) : Json :=
  .object (Json.Members.ofList
    [("path", .string p.path.text), ("dir", .string p.dir.text), ("blocks", .array (p.blocks.map Block.toJson))])

def ofDocument? (d : Document) : Option Page := do
  match ← d.record? ["path", "dir", "blocks"] with
  | [path, dir, blocks] =>
    return { path := ⟨← Document.required Document.string? path⟩
             dir := ⟨← Document.optional Document.string? "" dir⟩
             blocks := ← Document.optional (fun d => d.array?.bind (·.mapM Block.ofDocument?)) [] blocks }
  | _ => none

/-- Reads the text of a page description.  A page without a directory is in the one that its path names. -/
def ofText? (text : String) : Option Page := do
  let page ← (Document.ofText? text).bind ofDocument?
  return if page.dir.isEmpty then .ofPath page.path page.blocks else page

end Page

end StepChain
