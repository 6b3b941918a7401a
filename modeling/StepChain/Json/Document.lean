import StepChain.Json.Basic
import StepChain.Text.Digits
/-!
# JSON texts as read

A `Document` is what the grammar of JSON makes of a text, before anything is asked of its content: members keep their
order and may repeat a key, a string with an unpaired surrogate and a number beyond the doubles are there but have no
value.  Two readings follow:
- `Document.toJson?` is the value of a document; a later member replaces an earlier one of the same key, and arrays
  and objects nest at most `Document.maxNesting` deep;
- `Document.record?` finds the fields of a record, given as an object or as an array in field order; members it does
  not know are never looked at, so they may hold anything the grammar allows.

`Document.ofText?` reads a whole text, `Document.ofJson` turns a value into its document.
-/
namespace StepChain

namespace Json

inductive Document where
  | null
  | bool (value : Bool)
  | number (value : Option Number)
  | string (value : Option String)
  | array (items : List Document)
  | object (members : List (Option String × Document))

instance : Inhabited Document := ⟨.null⟩

namespace Document

/-! ### Strings -/

/-- What one letter after a backslash stands for. -/
def escape? : Char → Option Char
  | '"' => some '"'
  | '\\' => some '\\'
  | '/' => some '/'
  | 'b' => some '\x08'
  | 'f' => some '\x0c'
  | 'n' => some '\n'
  | 'r' => some '\r'
  | 't' => some '\t'
  | _ => none

/-- Reads a string after its opening quote.  The answer lists code points, those written as `\u` escapes one unit
each, so surrogates are still apart. -/
def readString : List Char → Option (List Nat × List Char)
  | [] => none
  | '"' :: rest => some ([], rest)
  | '\\' :: 'u' :: a :: b :: c :: d :: rest => do
    let unit := (← hexValue? a) * 4096 + (← hexValue? b) * 256 + (← hexValue? c) * 16 + (← hexValue? d)
    let (units, rest) ← readString rest
    return (unit :: units, rest)
  | '\\' :: e :: rest => do
    let c ← escape? e
    let (units, rest) ← readString rest
    return (c.toNat :: units, rest)
  | c :: rest => do
    guard (32 ≤ c.toNat)
    let (units, rest) ← readString rest
    return (c.toNat :: units, rest)

def isHighSurrogate (u : Nat) : Bool := 0xD800 ≤ u && u < 0xDC00

def isLowSurrogate (u : Nat) : Bool := 0xDC00 ≤ u && u < 0xE000

/-- The characters of a list of code points, each high surrogate joined with the low one after it; `none` if one of
either kind stands alone. -/
def joinUnits : List Nat → Option (List Char)
  | [] => some []
  | h :: l :: rest =>
    if isHighSurrogate h then
      if isLowSurrogate l then
        (joinUnits rest).map (Char.ofNat (0x10000 + (h - 0xD800) * 1024 + (l - 0xDC00)) :: ·)
      else none
    else if isLowSurrogate h then none
    else (joinUnits (l :: rest)).map (Char.ofNat h :: ·)
  | [u] => if isHighSurrogate u || isLowSurrogate u then none else some [Char.ofNat u]

/-! ### Numbers -/

def maxSignificand : Nat := twoTo 64 - 1

/-- Takes digits into the significand while it stays within `maxSignificand`, and counts those left over. -/
def absorb : Nat → List Char → Nat × Nat
  | s, [] => (s, 0)
  | s, d :: ds =>
    let s' := s * 10 + digitValue d
    if s' ≤ maxSignificand then absorb s' ds else (s, ds.length + 1)

/-- A whole number is exact from -2^63 to 2^64 - 1; beyond, and for a negative zero, it is a double. -/
def wholeNumber (negative : Bool) (s : Nat) : Number :=
  if negative then
    if s = 0 ∨ twoTo 63 < s then .float ⟨true, (Magnitude.ofRatio? s 1).getD .zero⟩ else .int (-(s : Int))
  else .int s

/-- The number written by these digits.  Whole digits that no longer fit only raise the exponent, digits of the
fraction that no longer fit are dropped; `none` if the result is beyond the doubles. -/
def numberOf (negative : Bool) (whole : List Char) (fraction : Option (List Char)) (exponent : Option Int) :
    Option Number :=
  let (s, dropped) := absorb 0 whole
  match fraction, exponent, dropped with
  | none, none, 0 => some (wholeNumber negative s)
  | _, _, _ =>
    let digits := fraction.getD []
    let (s, unread) := absorb s digits
    let scale : Int := (dropped : Int) - ((digits.length - unread : Nat) : Int) + exponent.getD 0
    (Magnitude.scaled? s scale).map (fun x => .float ⟨negative, x⟩)

/-- The run of digits a text starts with, and the rest; there must be one. -/
def readDigits? (cs : List Char) : Option (List Char × List Char) :=
  let digits := cs.takeWhile Char.isDigit
  if digits.isEmpty then none else some (digits, cs.dropWhile Char.isDigit)

def readWhole? : List Char → Option (List Char × List Char)
  | '0' :: rest => if (rest.head?.map Char.isDigit).getD false then none else some (['0'], rest)
  | cs => readDigits? cs

def readFraction? : List Char → Option (Option (List Char) × List Char)
  | '.' :: rest => (readDigits? rest).map fun (digits, rest) => (some digits, rest)
  | cs => some (none, cs)

/-- The sign and digits of an exponent. -/
def readSigned? : List Char → Option (Int × List Char)
  | '-' :: rest => (readDigits? rest).map fun (digits, rest) => (-(naturalOf digits : Int), rest)
  | '+' :: rest => (readDigits? rest).map fun (digits, rest) => ((naturalOf digits : Int), rest)
  | cs => (readDigits? cs).map fun (digits, rest) => ((naturalOf digits : Int), rest)

def readExponent? : List Char → Option (Option Int × List Char)
  | 'e' :: rest | 'E' :: rest => (readSigned? rest).map fun (n, rest) => (some n, rest)
  | cs => some (none, cs)

def readNumber? (negative : Bool) (cs : List Char) : Option (Document × List Char) := do
  let (whole, rest) ← readWhole? cs
  let (fraction, rest) ← readFraction? rest
  let (exponent, rest) ← readExponent? rest
  return (.number (numberOf negative whole fraction exponent), rest)

/-! ### Values -/

def isBlank (c : Char) : Bool := c = ' ' ∨ c = '\n' ∨ c = '\t' ∨ c = '\r'

def skipBlanks (cs : List Char) : List Char := cs.dropWhile isBlank

mutual

/-- Reads one value, blanks before it included. -/
def readValue : Nat → List Char → Option (Document × List Char)
  | 0, _ => none
  | fuel + 1, cs =>
    match skipBlanks cs with
    | 'n' :: 'u' :: 'l' :: 'l' :: rest => some (.null, rest)
    | 't' :: 'r' :: 'u' :: 'e' :: rest => some (.bool true, rest)
    | 'f' :: 'a' :: 'l' :: 's' :: 'e' :: rest => some (.bool false, rest)
    | '"' :: rest => (readString rest).map fun (units, rest) => (.string ((joinUnits units).map String.ofList), rest)
    | '[' :: rest =>
      match skipBlanks rest with
      | ']' :: rest => some (.array [], rest)
      | rest => (readItems fuel rest).map fun (items, rest) => (.array items, rest)
    | '\x7b' :: rest =>
      match skipBlanks rest with
      | '\x7d' :: rest => some (.object [], rest)
      | rest => (readMembers fuel rest).map fun (members, rest) => (.object members, rest)
    | '-' :: rest => readNumber? true rest
    | rest => readNumber? false rest

/-- Reads the items of an array up to and with its closing bracket. -/
def readItems : Nat → List Char → Option (List Document × List Char)
  | 0, _ => none
  | fuel + 1, cs => do
    let (item, rest) ← readValue fuel cs
    match skipBlanks rest with
    | ',' :: rest =>
      let (items, rest) ← readItems fuel rest
      return (item :: items, rest)
    | ']' :: rest => return ([item], rest)
    | _ => none

/-- Reads the members of an object up to and with its closing brace. -/
def readMembers : Nat → List Char → Option (List (Option String × Document) × List Char)
  | 0, _ => none
  | fuel + 1, cs =>
    match skipBlanks cs with
    | '"' :: rest => do
      let (units, rest) ← readString rest
      let key := (joinUnits units).map String.ofList
      match skipBlanks rest with
      | ':' :: rest =>
        let (value, rest) ← readValue fuel rest
        match skipBlanks rest with
        | ',' :: rest =>
          let (members, rest) ← readMembers fuel rest
          return ((key, value) :: members, rest)
        | '\x7d' :: rest => return ([(key, value)], rest)
        | _ => none
      | _ => none
    | _ => none

end

/-- Reads a text that holds one value and nothing else.  Each character opens at most two calls, which bounds their
depth. -/
def ofText? (text : String) : Option Document := do
  let cs := text.toList
  let (value, rest) ← readValue (2 * cs.length + 2) cs
  guard (skipBlanks rest).isEmpty
  return value

/-! ### The value of a document -/

/-- How deep arrays and objects may nest in a value. -/
def maxNesting : Nat := 127

mutual

/-- The value of a document whose arrays and objects nest at most `nesting` deep. -/
def toJsonWithin (nesting : Nat) : Document → Option Json
  | .null => some .null
  | .bool b => some (.bool b)
  | .number n => n.map .number
  | .string s => s.map .string
  | .array items =>
    match nesting with
    | 0 => none
    | nesting + 1 => (itemsWithin nesting items).map .array
  | .object members =>
    match nesting with
    | 0 => none
    | nesting + 1 => (membersWithin nesting members).map (fun entries => .object (Members.ofList entries))

def itemsWithin (nesting : Nat) : List Document → Option (List Json)
  | [] => some []
  | d :: rest => do
    let j ← toJsonWithin nesting d
    let js ← itemsWithin nesting rest
    return j :: js

def membersWithin (nesting : Nat) : List (Option String × Document) → Option (List (String × Json))
  | [] => some []
  | (key, d) :: rest => do
    let k ← key
    let j ← toJsonWithin nesting d
    let entries ← membersWithin nesting rest
    return (k, j) :: entries

end

def toJson? (d : Document) : Option Json := d.toJsonWithin maxNesting

mutual

def ofJson : Json → Document
  | .null => .null
  | .bool b => .bool b
  | .number n => .number (some n)
  | .string s => .string (some s)
  | .array items => .array (ofItems items)
  | .object ms => .object (ofMembers ms)

def ofItems : List Json → List Document
  | [] => []
  | j :: rest => ofJson j :: ofItems rest

def ofMembers : {low : Option String} → Members low → List (Option String × Document)
  | _, .nil => []
  | _, .cons k _ v rest => (some k, ofJson v) :: ofMembers rest

end

/-! ### Records -/

def string? : Document → Option String
  | .string s => s
  | _ => none

def array? : Document → Option (List Document)
  | .array items => some items
  | _ => none

def strings? (d : Document) : Option (List String) := d.array?.bind (·.mapM string?)

/-- The only member with this key: `some none` if there is none, `none` if there are several. -/
def member? (members : List (Option String × Document)) (name : String) : Option (Option Document) :=
  match members.filter (·.1 == some name) with
  | [] => some none
  | [m] => some (some m.2)
  | _ => none

/-- The fields of a record by their names, each present or not.  An object may hold other members too, its keys being
proper strings; an array holds the fields in order, the last ones possibly missing. -/
def record? (names : List String) : Document → Option (List (Option Document))
  | .object members =>
    if members.all (·.1.isSome) then names.mapM (member? members) else none
  | .array items =>
    if items.length ≤ names.length then
      some (items.map some ++ List.replicate (names.length - items.length) none)
    else none
  | _ => none

/-- A field that must be there. -/
def required {α : Type} (read : Document → Option α) (field : Option Document) : Option α := field.bind read

/-- A field that may be missing. -/
def optional {α : Type} (read : Document → Option α) (default : α) : Option Document → Option α
  | some d => read d
  | none => some default

/-- A value that may be `null`, which is the same as a missing one. -/
def nullable {α : Type} (read : Document → Option α) : Document → Option (Option α)
  | .null => some none
  | d => (read d).map some

end Document

def ofText? (text : String) : Option Json := (Document.ofText? text).bind Document.toJson?

end Json

end StepChain
