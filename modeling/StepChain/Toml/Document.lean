import StepChain.Toml.Numeral
import StepChain.Toml.Outline
/-!
# Reading TOML documents

`Table.ofText?` reads a document line by line: a key with its value, the header of a table or of a further table in an
array, or nothing but a comment.  Values nest at most `maxNesting` deep and keys have at most as many parts.
-/
namespace StepChain.Toml

/-- How deep arrays and inline tables may nest, and how many parts a dotted key may have. -/
def maxNesting : Nat := 79

def skipSpaces (cs : List Char) : List Char := cs.dropWhile isSpace

/-- Skips a comment, up to the line break after it. -/
def skipComment (cs : List Char) : List Char := cs.dropWhile isPrintable

/-- Reads the end of a line, a comment before it included; the end of the text is one too. -/
def readLineEnd? (cs : List Char) : Option (List Char) :=
  let rest := match skipSpaces cs with
    | '#' :: rest => skipComment rest
    | rest => rest
  if rest.isEmpty then some [] else readNewline? rest

/-- Skips blanks, line breaks and comments between the items of an array; a comment must end with its line. -/
def skipBetween : Nat → List Char → Option (List Char)
  | 0, _ => none
  | fuel + 1, cs =>
    match skipSpaces cs with
    | '#' :: rest => (readNewline? (skipComment rest)).bind (skipBetween fuel)
    | rest =>
      match readNewline? rest with
      | some rest => skipBetween fuel rest
      | none => some rest

/-! ### Keys -/

def isBareKeyChar (c : Char) : Bool := c.isAlphanum || c == '-' || c == '_'

/-- Reads one part of a key: bare, or a string on one line. -/
def readKeyPart? (cs : List Char) : Option (String × List Char) :=
  match cs with
  | '"' :: rest => (readBasic (rest.length + 1) rest).map fun (text, rest) => (String.ofList text, rest)
  | '\'' :: rest => (readLiteral rest).map fun (text, rest) => (String.ofList text, rest)
  | _ =>
    let bare := cs.takeWhile isBareKeyChar
    if bare.isEmpty then none else some (String.ofList bare, cs.dropWhile isBareKeyChar)

/-- Reads a key of at most `count` parts with points between them, blanks around each part included. -/
def readKey : Nat → List Char → Option (List String × List Char)
  | 0, _ => none
  | count + 1, cs => do
    let (part, rest) ← readKeyPart? (skipSpaces cs)
    match skipSpaces rest with
    | '.' :: rest =>
      let (parts, rest) ← readKey count rest
      return (part :: parts, rest)
    | rest => return ([part], rest)

def splitKey? (key : List String) : Option (List String × String) :=
  key.getLast?.map fun last => (key.dropLast, last)

/-! ### Values -/

/-- The table of an inline table, its keys set one after another. -/
def inlineTable? (pairs : List (List String × Value)) : Option Value := do
  let entries ← pairs.foldlM (fun entries pair => do
    let (path, last) ← splitKey? pair.1
    Outline.setDotted pair.2 last path entries) ([] : Outline.Entries)
  return .table (Outline.entriesToTable entries)

mutual

/-- Reads a value that nests at most `nesting` deep. -/
def readValue (nesting : Nat) : Nat → List Char → Option (Value × List Char)
  | 0, _ => none
  | fuel + 1, cs =>
    match cs with
    | '"' :: _ | '\'' :: _ => (readText? cs).map fun (s, rest) => (.string s, rest)
    | '[' :: rest =>
      match nesting with
      | 0 => none
      | nesting + 1 => (readItems nesting fuel rest).map fun (items, rest) => (.array items, rest)
    | '\x7b' :: rest =>
      match nesting with
      | 0 => none
      | nesting + 1 =>
        match skipSpaces rest with
        | '\x7d' :: rest => some (.table [], rest)
        | rest => do
          let (pairs, rest) ← readPairs nesting fuel rest
          return (← inlineTable? pairs, rest)
    | 't' :: 'r' :: 'u' :: 'e' :: rest => some (.boolean true, rest)
    | 'f' :: 'a' :: 'l' :: 's' :: 'e' :: rest => some (.boolean false, rest)
    | _ => readNumeral? cs

/-- Reads the items of an array up to and with its closing bracket; a comma may stand after the last. -/
def readItems (nesting : Nat) : Nat → List Char → Option (List Value × List Char)
  | 0, _ => none
  | fuel + 1, cs => do
    match ← skipBetween (cs.length + 1) cs with
    | ']' :: rest => return ([], rest)
    | cs =>
      let (item, rest) ← readValue nesting fuel cs
      match ← skipBetween (rest.length + 1) rest with
      | ',' :: rest =>
        let (items, rest) ← readItems nesting fuel rest
        return (item :: items, rest)
      | ']' :: rest => return ([item], rest)
      | _ => none

/-- Reads the pairs of an inline table up to and with its closing brace; all on one line, and no comma after the last.
-/
def readPairs (nesting : Nat) : Nat → List Char → Option (List (List String × Value) × List Char)
  | 0, _ => none
  | fuel + 1, cs => do
    let (key, rest) ← readKey maxNesting cs
    match rest with
    | '=' :: rest =>
      let (value, rest) ← readValue nesting fuel (skipSpaces rest)
      match skipSpaces rest with
      | ',' :: rest =>
        let (pairs, rest) ← readPairs nesting fuel rest
        return ((key, value) :: pairs, rest)
      | '\x7d' :: rest => return ([(key, value)], rest)
      | _ => none
    | _ => none

end

/-! ### Lines -/

inductive Line where
  | pair (key : List String) (value : Value)
  | table (key : List String)
  | item (key : List String)
  | nothing

def readLine? (cs : List Char) : Option (Line × List Char) :=
  match skipSpaces cs with
  | '[' :: '[' :: rest => do
    let (key, rest) ← readKey maxNesting rest
    match rest with
    | ']' :: ']' :: rest => return (.item key, ← readLineEnd? rest)
    | _ => none
  | '[' :: rest => do
    let (key, rest) ← readKey maxNesting rest
    match rest with
    | ']' :: rest => return (.table key, ← readLineEnd? rest)
    | _ => none
  | [] => some (.nothing, [])
  | '#' :: rest => (readLineEnd? ('#' :: rest)).map fun rest => (.nothing, rest)
  | c :: rest =>
    match readNewline? (c :: rest) with
    | some rest => some (.nothing, rest)
    | none => do
      let (key, rest) ← readKey maxNesting (c :: rest)
      match rest with
      | '=' :: rest =>
        let (value, rest) ← readValue maxNesting (2 * rest.length + 2) (skipSpaces rest)
        return (.pair key value, ← readLineEnd? rest)
      | _ => none

def readLines : Nat → List Char → Option (List Line)
  | 0, _ => none
  | fuel + 1, cs =>
    if cs.isEmpty then some []
    else do
      let (line, rest) ← readLine? cs
      let lines ← readLines fuel rest
      return line :: lines

/-- A document that is being read: its tables, and the header that keys are set under. -/
structure Progress where
  entries : Outline.Entries
  header : List String

/-- Takes one line into a document. -/
def Progress.take? (p : Progress) : Line → Option Progress
  | .nothing => some p
  | .pair key value => do
    let (path, last) ← splitKey? key
    let entries ← Outline.within (Outline.setDotted value last path) p.header p.entries
    return { p with entries }
  | .table key => do
    let (path, last) ← splitKey? key
    return ⟨← Outline.within (Outline.openTable last) path p.entries, key⟩
  | .item key => do
    let (path, last) ← splitKey? key
    return ⟨← Outline.within (Outline.openItem last) path p.entries, key⟩

/-- Reads a TOML document; a byte order mark at its start is not part of it. -/
def Table.ofText? (text : String) : Option Table := do
  let cs := match text.toList with
    | '\uFEFF' :: rest => rest
    | cs => cs
  let lines ← readLines (cs.length + 1) cs
  let p ← lines.foldlM Progress.take? ⟨[], []⟩
  return Outline.entriesToTable p.entries

end StepChain.Toml
