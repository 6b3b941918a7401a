import StepChain.Json.Overlay
import StepChain.Step.Basic
/-!
# Generated sections

What a step asks for arrives in fragments, one object for each call.  They collect in the step's generated section:
`addFragment` appends file lists and overlays everything else.  `Config.withGenerated` then sets that section in a
configuration, under the step's name and the key `generated`, and leaves every sibling of the section alone.

Main statements: `get?_addFragment`, `get?_withGenerated`.
-/
namespace StepChain

open Json (Object Members overlay overlayAt)

/-- The key of a step's entry that holds its generated section. -/
def sectionKey : String := "generated"

/-- A configuration: one entry for each step, and whatever else the caller keeps there. -/
abbrev Config := Object

/-- What a key of a section holds after a fragment: two file lists are joined, all else is laid over. -/
def fragmentAt (key : String) : Option Json → Json → Json
  | some (.array old), .array new => if key = fileListKey then .array (old ++ new) else .array new
  | old, new => overlayAt old new

def addFragment (current fragment : Object) : Object := Members.mergeWith fragmentAt current fragment

/-- A key of the fragment holds its value combined with what was there, and every other key what it held. -/
theorem get?_addFragment (current fragment : Object) (key : String) :
    (addFragment current fragment).get? key =
      match fragment.get? key with
      | some v => some (fragmentAt key (current.get? key) v)
      | none => current.get? key :=
  Members.get?_mergeWith fragmentAt current fragment key

/-- The members of a step's entry; an entry that is missing or no object has none. -/
def entryMembers (entry : Option Json) : Object := (entry.bind Json.object?).getD .nil

def entryWith (entry : Option Json) (generated : Json) : Json :=
  .object ((entryMembers entry).insert sectionKey generated)

/-- Sets the generated section of every step in `generated`. -/
def Config.withGenerated (config : Config) (generated : Object) : Config :=
  Members.mergeWith (fun _ => entryWith) config generated

/-- A step that was generated for has only its section replaced, and every other key holds what it held. -/
theorem get?_withGenerated (config : Config) (generated : Object) (key : String) :
    (config.withGenerated generated).get? key =
      match generated.get? key with
      | some v => some (entryWith (config.get? key) v)
      | none => config.get? key :=
  Members.get?_mergeWith _ config generated key

end StepChain
