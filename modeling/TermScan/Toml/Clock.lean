import TermScan.Toml.Lexical
import TermScan.Toml.Value

/-!
# Dates and times of TOML

Every part has a fixed number of digits and must exist on the calendar and the clock; a minute may
have a leap second.
-/
namespace TermScan.Toml

/-- A number of exactly `count` digits within bounds. -/
def readPart (count least most : Nat) (text : List Char) : Option (Found Nat) :=
  (readFixed 10 count text).filter fun (n, _) => least ≤ n && n ≤ most

def isLeapYear (year : Nat) : Bool := year % 4 == 0 && (year % 100 != 0 || year % 400 == 0)

def daysInMonth (year month : Nat) : Nat :=
  match month with
  | 2 => if isLeapYear year then 29 else 28
  | 4 | 6 | 9 | 11 => 30
  | _ => 31

def readDate (text : List Char) : Option (Found Date) := do
  let (year, text) ← readFixed 10 4 text
  let text ← skipExactly? ['-'] text
  let (month, text) ← readPart 2 1 12 text
  let text ← skipExactly? ['-'] text
  let (day, text) ← readPart 2 1 (daysInMonth year month) text
  return (⟨year, month, day⟩, text)

/-- The nanoseconds of a fraction of a second; further digits do not count. -/
def readNanoseconds : List Char → Option (Found Nat)
  | '.' :: rest =>
    let digits := rest.takeWhile Char.isDigit
    if digits.isEmpty then none
    else
      let kept := (digits ++ List.replicate 9 '0').take 9
      (readFixed 10 9 kept).map fun (n, _) => (n, rest.dropWhile Char.isDigit)
  | text => some (0, text)

def readTime (text : List Char) : Option (Found Time) := do
  let (hour, text) ← readPart 2 0 23 text
  let text ← skipExactly? [':'] text
  let (minute, text) ← readPart 2 0 59 text
  let text ← skipExactly? [':'] text
  let (second, text) ← readPart 2 0 60 text
  let (nanosecond, text) ← readNanoseconds text
  return (⟨hour, minute, second, nanosecond⟩, text)

/-- The hours and minutes of an offset, in minutes. -/
def readOffsetAmount (text : List Char) : Option (Found Nat) := do
  let (hour, text) ← readPart 2 0 23 text
  let text ← skipExactly? [':'] text
  let (minute, text) ← readPart 2 0 59 text
  return (hour * 60 + minute, text)

def readOffset : List Char → Option (Found (Option Offset))
  | 'Z' :: rest => some (some .zulu, rest)
  | 'z' :: rest => some (some .zulu, rest)
  | '+' :: rest => (readOffsetAmount rest).map fun (n, behind) => (some (.minutes n), behind)
  | '-' :: rest => (readOffsetAmount rest).map fun (n, behind) => (some (.minutes (-n)), behind)
  | text => some (none, text)

/-- A time of day behind a date, with its offset. The mark between may be a space. -/
def readTimeOfDate : List Char → Option (Found (Time × Option Offset))
  | c :: rest =>
    if c = 'T' ∨ c = 't' ∨ c = ' ' then do
      let (time, text) ← readTime rest
      let (offset, text) ← readOffset text
      return ((time, offset), text)
    else none
  | [] => none

/-- A day, a time of day or both. -/
def readMoment (text : List Char) : Option (Found Moment) :=
  match readDate text with
  | some (date, behind) =>
    match readTimeOfDate behind with
    | some ((time, offset), behind) => some (.both date time offset, behind)
    | none => some (.day date, behind)
  | none => (readTime text).map fun (time, behind) => (.time time, behind)

end TermScan.Toml
