import StepChain.Compile.Basic
import StepChain.Toml.Document
/-!
# Project files

A project file is a TOML document with a layout under `paths`, a chain for each block type under `steps`,
post-processors under `post` and a switch under `behavior`.  Reading it checks the layout and the form of every entry;
whether the steps it names exist is asked only when its flow is built.

Where a record is wanted an array of its fields in order serves too.  In chains and post-processors a datetime stands
for its text.
-/
namespace StepChain

open Toml (Table Value)

/-- The fields of a record by their names; an array holds them in order, and what follows them in it is ignored. -/
def Toml.Value.fields? (names : List String) (v : Value) : Option (List (Option Value)) :=
  match v with
  | .array items => some ((items.map some ++ List.replicate names.length none).take names.length)
  | v => v.table?.map fun entries => names.map (Table.get? entries)

/-- A field that must be there. -/
def Toml.Value.required {α : Type} (read : Value → Option α) (field : Option Value) : Option α := field.bind read

/-- A field that may be missing. -/
def Toml.Value.optional {α : Type} (read : Value → Option α) (default : α) : Option Value → Option α
  | some v => read v
  | none => some default

namespace Roots

def ofToml? : Value → Option Roots
  | .string s => some (.one ⟨s⟩)
  | v => (v.array?.bind (·.mapM Value.string?)).map fun roots => .many (roots.map Path.mk)

end Roots

namespace Layout

def ofToml? (v : Value) : Option Layout := do
  match ← v.fields? ["input", "root", "dest", "staging"] with
  | [input, root, dest, staging] =>
    return { input := (← Value.optional (fun v => v.string?.map some) none input).map Path.mk
             roots := ← Value.optional (fun v => (Roots.ofToml? v).map some) none root
             dest := ⟨← Value.required Value.string? dest⟩
             staging := ⟨← Value.required Value.string? staging⟩ }
  | _ => none

end Layout

/-- A project file as read: chains and post-processors are still TOML. -/
structure Project where
  layout : Layout
  strict : Bool
  steps : Table
  posts : Table

namespace Project

/-- The switch under `behavior`. -/
def strictOf? (v : Value) : Option Bool := do
  match ← v.fields? ["warn_missing"] with
  | [warn] => Value.optional Value.boolean? false warn
  | _ => none

/-- The entries of `steps` or `post`, datetimes read in either spelling. -/
def sectionOf? (v : Value) : Option Table := v.table?.bind Value.unmarkedEntries?

def ofTable? (t : Table) : Option Project := do
  return { layout := ← Value.required Layout.ofToml? (t.get? "paths")
           strict := ← Value.optional strictOf? false (t.get? "behavior")
           steps := ← Value.optional sectionOf? [] (t.get? "steps")
           posts := ← Value.optional sectionOf? [] (t.get? "post") }

/-- An entry of a chain: an identifier, or a standard step by its name and mode. -/
def chainEntryOf? : Value → Option ChainEntry
  | .table entries => do
    let name ← Value.required Value.name? (Table.get? entries "name")
    let perSource ← Value.optional Value.boolean? false (Table.get? entries "per_source")
    return .step (.standard name (if perSource then .perSource else .merged))
  | v => v.name?.map .id

/-- A post-processor as written: the step it follows, and perhaps options. -/
def postOf? : Value → Option (String × Option Value)
  | .table entries => do
    let step ← Value.required Value.name? (Table.get? entries "step")
    return (step, Table.get? entries "options")
  | .array [step] => step.name?.map (·, none)
  | .array [step, options] => step.name?.map (·, some options)
  | _ => none

/-- The options of a post-processor as JSON, `null` if there are none. -/
def optionsJson (options : Option Value) : Json := (options.map Value.toJson).getD .null

/-- The post-processor of an entry of `post`; its options are an object or nothing. -/
def checkedPost (blockType : String) (entry : String × Option Value) : Except ProjectFault Post :=
  let options := optionsJson entry.2
  if options.isObject ∨ options.isNull then .ok ⟨entry.1, .options options⟩
  else .error (.optionsNotTable blockType entry.1)

def chainOf (entry : String × Value) : Except ProjectFault (List ChainEntry) :=
  match entry.2.array?.bind (·.mapM chainEntryOf?) with
  | some refs => .ok refs
  | none => .error (.invalidChain entry.1)

def postsOf (entry : String × Value) : Except ProjectFault (List Post) :=
  match entry.2.array?.bind (·.mapM postOf?) with
  | some posts => posts.mapM (checkedPost entry.1)
  | none => .error (.invalidPosts entry.1)

/-- What the project declares; the first entry of the wrong form is the error, chains before post-processors. -/
def declarations (p : Project) : Except ProjectFault Declarations := do
  let chains ← p.steps.mapM fun entry => return (entry.1, ← chainOf entry)
  let posts ← p.posts.mapM fun entry => return (entry.1, ← postsOf entry)
  let spec := chains.foldl (fun spec c => spec.withChain c.1 c.2) Declarations.empty
  return posts.foldl (fun spec e => e.2.foldl (fun spec post => spec.withPost e.1 post) spec) spec

/-- Whether a project can be used, as far as its own text tells. -/
def check (p : Project) : Except ProjectFault Unit := do
  p.layout.check.mapError .config
  let _ ← p.declarations

def ofText (text : String) : Except ProjectFault Project :=
  match (Table.ofText? text).bind ofTable? with
  | some p => do
    p.check
    return p
  | none => .error .malformed

def flow (p : Project) (registry : Registry) : Except ProjectFault Flow := do
  (Flow.ofDeclarations registry (← p.declarations)).mapError .config

/-- The compiler of a project over the built-in steps. -/
def compiler (p : Project) : Except ProjectFault Compiler := do
  (Compiler.ofLayout (← p.flow .standard) p.layout ⟨p.strict, none⟩).mapError .config

end Project

end StepChain
