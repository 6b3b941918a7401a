import StepChain.Text.Digits
/-!
# Strings in TOML

The four kinds of string: basic ones with escapes and literal ones without, each on one line or over several.  Each
reader starts after the opening quotes and ends after the closing ones.  A line break in a string over several lines
reads as a line feed, however it is written, and one right after the opening quotes is not part of the string.
-/
namespace StepChain.Toml

def isSpace (c : Char) : Bool := c = ' ' ∨ c = '\t'

/-- A character that may stand for itself: no control character but the tab. -/
def isPrintable (c : Char) : Bool := c = '\t' ∨ (32 ≤ c.toNat ∧ c.toNat ≠ 127)

/-- The character with the code point written by exactly `width` hexadecimal digits, and the rest. -/
def readScalar? (width : Nat) (cs : List Char) : Option (Char × List Char) := do
  let digits := cs.take width
  guard (digits.length = width)
  let n ← hexNatural? digits
  guard (n < 0xD800 ∨ (0xDFFF < n ∧ n < 0x110000))
  return (Char.ofNat n, cs.drop width)

def readEscape? : List Char → Option (Char × List Char)
  | 'b' :: rest => some ('\x08', rest)
  | 't' :: rest => some ('\t', rest)
  | 'n' :: rest => some ('\n', rest)
  | 'f' :: rest => some ('\x0c', rest)
  | 'r' :: rest => some ('\r', rest)
  | '"' :: rest => some ('"', rest)
  | '\\' :: rest => some ('\\', rest)
  | 'u' :: rest => readScalar? 4 rest
  | 'U' :: rest => readScalar? 8 rest
  | _ => none

def readNewline? : List Char → Option (List Char)
  | '\n' :: rest => some rest
  | '\r' :: '\n' :: rest => some rest
  | _ => none

/-- Reads a basic string on one line; `fuel` bounds the number of its characters. -/
def readBasic : Nat → List Char → Option (List Char × List Char)
  | 0, _ => none
  | fuel + 1, cs =>
    match cs with
    | '"' :: rest => some ([], rest)
    | '\\' :: rest => do
      let (c, rest) ← readEscape? rest
      let (text, rest) ← readBasic fuel rest
      return (c :: text, rest)
    | c :: rest => do
      guard (isPrintable c)
      let (text, rest) ← readBasic fuel rest
      return (c :: text, rest)
    | [] => none

def readLiteral : List Char → Option (List Char × List Char)
  | '\'' :: rest => some ([], rest)
  | c :: rest => do
    guard (isPrintable c)
    let (text, rest) ← readLiteral rest
    return (c :: text, rest)
  | [] => none

def skipLines : List Char → List Char
  | ' ' :: rest => skipLines rest
  | '\t' :: rest => skipLines rest
  | '\n' :: rest => skipLines rest
  | '\r' :: '\n' :: rest => skipLines rest
  | cs => cs

/-- The text after a backslash at the end of a line: blanks and line breaks up to the next other character go. -/
def afterFold? (cs : List Char) : Option (List Char) := (readNewline? (cs.dropWhile isSpace)).map skipLines

/-- Up to two quotes that stand right before the closing ones belong to the string. -/
def closingQuotes (quote : Char) : List Char → List Char × List Char
  | a :: b :: rest =>
    if a = quote then if b = quote then ([a, b], rest) else ([a], b :: rest) else ([], a :: b :: rest)
  | [a] => if a = quote then ([a], []) else ([], [a])
  | [] => ([], [])

/-- Reads a basic string over several lines. -/
def readBasicLines : Nat → List Char → Option (List Char × List Char)
  | 0, _ => none
  | fuel + 1, cs =>
    match cs with
    | '"' :: '"' :: '"' :: rest => some (closingQuotes '"' rest)
    | '\\' :: rest =>
      match afterFold? rest with
      | some rest => readBasicLines fuel rest
      | none => do
        let (c, rest) ← readEscape? rest
        let (text, rest) ← readBasicLines fuel rest
        return (c :: text, rest)
    | '\n' :: rest | '\r' :: '\n' :: rest => do
      let (text, rest) ← readBasicLines fuel rest
      return ('\n' :: text, rest)
    | c :: rest => do
      guard (isPrintable c)
      let (text, rest) ← readBasicLines fuel rest
      return (c :: text, rest)
    | [] => none

def readLiteralLines : List Char → Option (List Char × List Char)
  | '\'' :: '\'' :: '\'' :: rest => some (closingQuotes '\'' rest)
  | '\n' :: rest | '\r' :: '\n' :: rest => do
    let (text, rest) ← readLiteralLines rest
    return ('\n' :: text, rest)
  | c :: rest => do
    guard (isPrintable c)
    let (text, rest) ← readLiteralLines rest
    return (c :: text, rest)
  | [] => none

/-- A text without the line break it may start with. -/
def dropNewline (cs : List Char) : List Char := (readNewline? cs).getD cs

/-- Reads a string of any kind, opening quotes included. -/
def readText? (cs : List Char) : Option (String × List Char) :=
  let done := fun (read : List Char × List Char) => (String.ofList read.1, read.2)
  match cs with
  | '"' :: '"' :: '"' :: rest => (readBasicLines (rest.length + 1) (dropNewline rest)).map done
  | '"' :: rest => (readBasic (rest.length + 1) rest).map done
  | '\'' :: '\'' :: '\'' :: rest => (readLiteralLines (dropNewline rest)).map done
  | '\'' :: rest => (readLiteral rest).map done
  | _ => none

end StepChain.Toml
