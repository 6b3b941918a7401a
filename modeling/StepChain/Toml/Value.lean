import StepChain.Json.Basic
import StepChain.Toml.Datetime
/-!
# TOML values

The values of a TOML document.  Tables keep the order of the document and hold a key at most once.  A float without a
finite value (`inf` or `nan`) has no double.

A table whose first key is `datetimeKey` is another spelling of a datetime, which `Value.unmarked?` reads.
`Value.toJson` is the JSON image of a value: datetimes become their text and floats without a value become `null`.
-/
namespace StepChain.Toml

inductive Value where
  | string (value : String)
  | integer (value : Int)
  | float (value : Option Binary64)
  | boolean (value : Bool)
  | datetime (value : Datetime)
  | array (items : List Value)
  | table (entries : List (String × Value))

/-- The entries of a table, in the order of the document. -/
abbrev Table := List (String × Value)

namespace Value

instance : Inhabited Value := ⟨.boolean false⟩

/-- The text a value is read as where a name is wanted: a string, or a datetime as it is written. -/
def name? : Value → Option String
  | .string s => some s
  | .datetime d => some d.text
  | _ => none

def string? : Value → Option String
  | .string s => some s
  | _ => none

def boolean? : Value → Option Bool
  | .boolean b => some b
  | _ => none

def array? : Value → Option (List Value)
  | .array items => some items
  | _ => none

/-- The key under which a datetime stands where a table is wanted. -/
def datetimeKey : String := "$__toml_private_datetime"

/-- The table a value is read as; a datetime is a table with itself as the only entry. -/
def table? : Value → Option Table
  | .table entries => some entries
  | .datetime d => some [(datetimeKey, .string d.text)]
  | _ => none

def isTable : Value → Bool
  | .table _ => true
  | _ => false

/-- What a table holds under `datetimeKey`, if that is its first key. -/
def marked? : Table → Option Value
  | (key, value) :: _ => if key = datetimeKey then some value else none
  | [] => none

mutual

/-- Replaces each table that is marked as a datetime by the datetime its mark spells, whatever else the table holds;
`none` if a mark spells none. -/
def unmarked? : Value → Option Value
  | .array items => (unmarkedItems? items).map .array
  | .table entries =>
    match marked? entries with
    | some mark => (mark.string?.bind Datetime.ofText?).map .datetime
    | none => (unmarkedEntries? entries).map .table
  | v => some v

def unmarkedItems? : List Value → Option (List Value)
  | [] => some []
  | v :: rest => do return (← v.unmarked?) :: (← unmarkedItems? rest)

def unmarkedEntries? : List (String × Value) → Option (List (String × Value))
  | [] => some []
  | (k, v) :: rest => do return (k, ← v.unmarked?) :: (← unmarkedEntries? rest)

end

mutual

def toJson : Value → Json
  | .string s => .string s
  | .integer n => .number (.int n)
  | .float none => .null
  | .float (some x) => .number (.float x)
  | .boolean b => .bool b
  | .datetime d => .string d.text
  | .array items => .array (itemsToJson items)
  | .table entries => .object (Json.Members.ofList (entriesToJson entries))

def itemsToJson : List Value → List Json
  | [] => []
  | v :: rest => v.toJson :: itemsToJson rest

def entriesToJson : List (String × Value) → List (String × Json)
  | [] => []
  | (k, v) :: rest => (k, v.toJson) :: entriesToJson rest

end

end Value

/-- The value of a key of a table. -/
def Table.get? (t : Table) (key : String) : Option Value := (t.find? (·.1 == key)).map (·.2)

end StepChain.Toml
