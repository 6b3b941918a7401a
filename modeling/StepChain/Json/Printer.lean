import StepChain.Json.Basic
import StepChain.Number.Shortest
/-!
# Writing JSON

Two layouts: `Json.compact` on one line without blanks and `Json.pretty` with two blanks of indentation for each
level. Empty arrays and objects stay on one line in both.  Members come in the order of their keys.
-/
namespace StepChain

def Number.text : Number → String
  | .int n => toString n
  | .float x => x.text

namespace Json

def hexDigit (n : Nat) : Char := Nat.digitChar n

/-- One character of a string: quote, backslash and the control characters are escaped, all else stands for itself. -/
def escapeChar (c : Char) : String :=
  if c = '"' then "\\\""
  else if c = '\\' then "\\\\"
  else if c = '\n' then "\\n"
  else if c = '\r' then "\\r"
  else if c = '\t' then "\\t"
  else if c = '\x08' then "\\b"
  else if c = '\x0c' then "\\f"
  else if c.toNat < 32 then ("\\u00".push (hexDigit (c.toNat / 16))).push (hexDigit (c.toNat % 16))
  else c.toString

def quote (s : String) : String := s.foldl (fun out c => out ++ escapeChar c) "\"" ++ "\""

/-- Brackets around items that are already written; `inner` and `outer` are what stands before an item and before the
closing bracket. -/
def bracket (opening closing inner outer : String) : List String → String
  | [] => opening ++ closing
  | items => opening ++ inner ++ ("," ++ inner).intercalate items ++ outer ++ closing

mutual

def compact : Json → String
  | .null => "null"
  | .bool b => if b then "true" else "false"
  | .number n => n.text
  | .string s => quote s
  | .array items => bracket "[" "]" "" "" (compactItems items)
  | .object ms => bracket "\x7b" "\x7d" "" "" (compactMembers ms)

def compactItems : List Json → List String
  | [] => []
  | j :: rest => j.compact :: compactItems rest

def compactMembers : {low : Option String} → Members low → List String
  | _, .nil => []
  | _, .cons k _ v rest => (quote k ++ ":" ++ v.compact) :: compactMembers rest

end

/-- A line break and the indentation of a level. -/
def newline (level : Nat) : String := "\n" ++ "".pushn ' ' (2 * level)

mutual

/-- The indented text of a value that starts at `level`. -/
def prettyAt (level : Nat) : Json → String
  | .null => "null"
  | .bool b => if b then "true" else "false"
  | .number n => n.text
  | .string s => quote s
  | .array items => bracket "[" "]" (newline (level + 1)) (newline level) (prettyItems (level + 1) items)
  | .object ms => bracket "\x7b" "\x7d" (newline (level + 1)) (newline level) (prettyMembers (level + 1) ms)

def prettyItems (level : Nat) : List Json → List String
  | [] => []
  | j :: rest => j.prettyAt level :: prettyItems level rest

def prettyMembers (level : Nat) : {low : Option String} → Members low → List String
  | _, .nil => []
  | _, .cons k _ v rest => (quote k ++ ": " ++ v.prettyAt level) :: prettyMembers level rest

end

def pretty (j : Json) : String := j.prettyAt 0

end Json

end StepChain
