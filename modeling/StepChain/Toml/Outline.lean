import StepChain.Toml.Value
/-!
# Building tables

While a document is read its tables are still open: headers and dotted keys may add to them.  An `Outline` remembers
how each table came about, which decides what may be added to it later:
- a table with a header of its own is closed to dotted keys and to a second header;
- one that only a longer header implies may still get its own header, which then moves it to the end, and dotted keys
  may pass through it but not set keys in it;
- one that a dotted key made takes further dotted keys but no header.

Arrays of tables stand for their last table.  A value is closed, inline tables included.
-/
namespace StepChain.Toml

inductive Origin where
  | header
  | implied
  | dotted
  deriving DecidableEq

inductive Outline where
  | value (value : Value)
  | table (origin : Origin) (entries : List (String × Outline))
  | tables (items : List (List (String × Outline)))

namespace Outline

/-- Open entries, in the order of the document. -/
abbrev Entries := List (String × Outline)

def lookup? (entries : Entries) (key : String) : Option Outline := (entries.find? (·.1 == key)).map (·.2)

/-- Changes what a key holds, in place. -/
def replace (key : String) (node : Outline) (entries : Entries) : Entries :=
  entries.map fun e => if e.1 == key then (key, node) else e

/-- The last table of an array of tables, changed. -/
def updateLast (f : Entries → Option Entries) : List Entries → Option (List Entries)
  | [] => none
  | [last] => (f last).map ([·])
  | first :: rest => (updateLast f rest).map (first :: ·)

/-- Sets a key that a dotted key leads to: `path` are the parts before the last one. -/
def setDotted (value : Value) (key : String) : List String → Entries → Option Entries
  | [], entries => if (lookup? entries key).isSome then none else some (entries ++ [(key, .value value)])
  | part :: path, entries =>
    match lookup? entries part with
    | none => (setDotted value key path []).map fun inner => entries ++ [(part, .table .dotted inner)]
    | some (.table origin inner) =>
      if origin = .header ∨ (path.isEmpty ∧ origin ≠ .dotted) then none
      else (setDotted value key path inner).map fun inner => replace part (.table origin inner) entries
    | some (.tables items) =>
      if path.isEmpty then none
      else (updateLast (setDotted value key path) items).map fun items => replace part (.tables items) entries
    | some (.value _) => none

/-- Changes the table that the parts of a header lead to; tables that are missing are implied. -/
def within (f : Entries → Option Entries) : List String → Entries → Option Entries
  | [], entries => f entries
  | part :: path, entries =>
    match lookup? entries part with
    | none => (within f path []).map fun inner => entries ++ [(part, .table .implied inner)]
    | some (.table origin inner) =>
      (within f path inner).map fun inner => replace part (.table origin inner) entries
    | some (.tables items) => (updateLast (within f path) items).map fun items => replace part (.tables items) entries
    | some (.value _) => none

/-- Opens the table of a header among its siblings. -/
def openTable (key : String) (entries : Entries) : Option Entries :=
  match lookup? entries key with
  | none => some (entries ++ [(key, .table .header [])])
  | some (.table .implied inner) => some (entries.filter (·.1 != key) ++ [(key, .table .header inner)])
  | some _ => none

/-- Opens a further table of an array of tables. -/
def openItem (key : String) (entries : Entries) : Option Entries :=
  match lookup? entries key with
  | none => some (entries ++ [(key, .tables [[]])])
  | some (.tables items) => some (replace key (.tables (items ++ [[]])) entries)
  | some _ => none

mutual

/-- The value that an outline stands for once its document is read. -/
def toValue : Outline → Value
  | .value v => v
  | .table _ entries => .table (entriesToTable entries)
  | .tables items => .array (itemsToValues items)

def entriesToTable : List (String × Outline) → List (String × Value)
  | [] => []
  | (k, node) :: rest => (k, node.toValue) :: entriesToTable rest

def itemsToValues : List (List (String × Outline)) → List Value
  | [] => []
  | entries :: rest => .table (entriesToTable entries) :: itemsToValues rest

end

end Outline

end StepChain.Toml
