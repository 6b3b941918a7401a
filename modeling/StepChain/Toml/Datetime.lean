import StepChain.Text.Digits
/-!
# Dates and times in TOML

A datetime is a date, a time of day or both, and with both perhaps an offset.  `Datetime.read?` reads the longest one
a text starts with and refuses dates that are not in the calendar, and `Datetime.ofText?` the one that is all of a text.
`Datetime.text` writes the normal form: `T` between date and time, `Z` for no offset, no zeros at the end of a fraction.
-/
namespace StepChain.Toml

structure Date where
  year : Nat
  month : Nat
  day : Nat
  deriving DecidableEq

structure Time where
  hour : Nat
  minute : Nat
  second : Nat
  nanosecond : Nat
  deriving DecidableEq

inductive Offset where
  | utc
  | minutes (east : Int)
  deriving DecidableEq

structure Datetime where
  date : Option Date
  time : Option Time
  offset : Option Offset
  deriving DecidableEq

/-- A number in at least `width` digits, zeros before it. -/
def padded (width n : Nat) : String :=
  let digits := Nat.toDigits 10 n
  String.ofList (List.replicate (width - digits.length) '0' ++ digits)

def daysIn (year month : Nat) : Nat :=
  if month = 2 then if year % 4 = 0 ∧ (year % 100 ≠ 0 ∨ year % 400 = 0) then 29 else 28
  else if month = 4 ∨ month = 6 ∨ month = 9 ∨ month = 11 then 30
  else 31

/-- A number of exactly `width` digits, at most `limit`. -/
def readFixed? (width limit : Nat) (cs : List Char) : Option (Nat × List Char) :=
  let digits := cs.take width
  if digits.length = width ∧ digits.all Char.isDigit ∧ naturalOf digits ≤ limit then
    some (naturalOf digits, cs.drop width)
  else none

def readExactly? (c : Char) : List Char → Option (List Char)
  | d :: rest => if d = c then some rest else none
  | [] => none

def Date.read? (cs : List Char) : Option (Date × List Char) := do
  let (year, cs) ← readFixed? 4 9999 cs
  let cs ← readExactly? '-' cs
  let (month, cs) ← readFixed? 2 12 cs
  let cs ← readExactly? '-' cs
  let (day, cs) ← readFixed? 2 31 cs
  guard (1 ≤ month ∧ 1 ≤ day ∧ day ≤ daysIn year month)
  return (⟨year, month, day⟩, cs)

/-- The fraction of a second after its point, cut to nanoseconds. -/
def nanosecondsOf (digits : List Char) : Nat := naturalOf ((digits ++ List.replicate 9 '0').take 9)

def Time.read? (cs : List Char) : Option (Time × List Char) := do
  let (hour, cs) ← readFixed? 2 23 cs
  let cs ← readExactly? ':' cs
  let (minute, cs) ← readFixed? 2 59 cs
  let cs ← readExactly? ':' cs
  let (second, cs) ← readFixed? 2 60 cs
  match cs with
  | '.' :: rest =>
    let digits := rest.takeWhile Char.isDigit
    if digits.isEmpty then return (⟨hour, minute, second, 0⟩, cs)
    else return (⟨hour, minute, second, nanosecondsOf digits⟩, rest.dropWhile Char.isDigit)
  | _ => return (⟨hour, minute, second, 0⟩, cs)

def startsTime (cs : List Char) : Bool :=
  match readFixed? 2 23 cs with
  | some (_, ':' :: _) => true
  | _ => false

def startsDate (cs : List Char) : Bool :=
  match readFixed? 4 9999 cs with
  | some (_, '-' :: _) => true
  | _ => false

def readOffsetMinutes? (cs : List Char) : Option (Nat × List Char) := do
  let (hours, cs) ← readFixed? 2 23 cs
  let cs ← readExactly? ':' cs
  let (minutes, cs) ← readFixed? 2 59 cs
  return (hours * 60 + minutes, cs)

def Offset.read? : List Char → Option (Option Offset × List Char)
  | 'Z' :: rest | 'z' :: rest => some (some .utc, rest)
  | '+' :: rest => (readOffsetMinutes? rest).map fun (n, rest) => (some (.minutes n), rest)
  | '-' :: rest => (readOffsetMinutes? rest).map fun (n, rest) => (some (.minutes (-n)), rest)
  | rest => some (none, rest)

/-- The rest of a datetime after its date: a time after a `T` or a blank, if one starts there. -/
def readAfterDate? (date : Date) (cs : List Char) : Option (Datetime × List Char) :=
  match cs with
  | c :: rest =>
    if (c = 'T' ∨ c = 't' ∨ c = ' ') ∧ startsTime rest then do
      let (time, rest) ← Time.read? rest
      let (offset, rest) ← Offset.read? rest
      return (⟨some date, some time, offset⟩, rest)
    else some (⟨some date, none, none⟩, cs)
  | [] => some (⟨some date, none, none⟩, [])

/-- Reads the datetime that a text starts with, once `startsDate` or `startsTime` has seen one. -/
def Datetime.read? (cs : List Char) : Option (Datetime × List Char) :=
  if startsDate cs then (Date.read? cs).bind fun (date, cs) => readAfterDate? date cs
  else (Time.read? cs).map fun (time, cs) => (⟨none, some time, none⟩, cs)

/-- The datetime that a whole text spells. -/
def Datetime.ofText? (s : String) : Option Datetime :=
  match Datetime.read? s.toList with
  | some (d, []) => some d
  | _ => none

def Date.text (d : Date) : String := padded 4 d.year ++ "-" ++ padded 2 d.month ++ "-" ++ padded 2 d.day

/-- The fraction of a second, without zeros at its end. -/
def fractionText (nanosecond : Nat) : String :=
  if nanosecond = 0 then ""
  else "." ++ String.ofList ((padded 9 nanosecond).toList.reverse.dropWhile (· == '0')).reverse

def Time.text (t : Time) : String :=
  padded 2 t.hour ++ ":" ++ padded 2 t.minute ++ ":" ++ padded 2 t.second ++ fractionText t.nanosecond

def Offset.text : Offset → String
  | .utc => "Z"
  | .minutes east =>
    let n := east.natAbs
    (if east < 0 then "-" else "+") ++ padded 2 (n / 60) ++ ":" ++ padded 2 (n % 60)

def Datetime.text (d : Datetime) : String :=
  ((d.date.map Date.text).getD "") ++ (if d.date.isSome ∧ d.time.isSome then "T" else "") ++
    ((d.time.map Time.text).getD "") ++ ((d.offset.map Offset.text).getD "")

end StepChain.Toml
