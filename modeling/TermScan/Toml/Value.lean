/-!
# Values of TOML documents

Texts, numbers, truth values, dates and times, and arrays and tables of such. Fractions are kept
in decimal as they are written, and a moment keeps the parts that are given.
-/
namespace TermScan.Toml

/-- A number that is written with a point, an exponent or a name. -/
inductive Decimal
  /-- The number `± mantissa * 10 ^ exponent`. -/
  | finite (negative : Bool) (mantissa : Nat) (exponent : Int)
  | infinite (negative : Bool)
  | nan
  deriving DecidableEq, Repr

namespace Decimal

/-- The least number that is nearer to no finite double than to infinity. -/
def overflowBound : Nat := Nat.pow 2 1024 - Nat.pow 2 970

/-- The number `mantissa * 10 ^ exponent` is too large for a double. The number of its digits
decides, unless it is that of the largest double. -/
def exceedsDoubles (mantissa : Nat) (exponent : Int) : Bool :=
  let places : Int := (Nat.toDigits 10 mantissa).length + exponent
  if mantissa = 0 || places < 309 then false
  else if 309 < places then true
  else if 0 ≤ exponent then overflowBound ≤ mantissa * Nat.pow 10 exponent.toNat
  else overflowBound * Nat.pow 10 (-exponent).toNat ≤ mantissa

end Decimal

structure Date where
  year : Nat
  month : Nat
  day : Nat
  deriving DecidableEq, Repr

structure Time where
  hour : Nat
  minute : Nat
  second : Nat
  nanosecond : Nat
  deriving DecidableEq, Repr

/-- The distance from universal time. -/
inductive Offset
  | zulu
  | minutes (amount : Int)
  deriving DecidableEq, Repr

/-- A day, a time of day or both; with both there may be an offset. -/
inductive Moment
  | day (date : Date)
  | time (time : Time)
  | both (date : Date) (time : Time) (offset : Option Offset)
  deriving DecidableEq, Repr

/-- A number in at least `width` digits. -/
def padded (width n : Nat) : String :=
  let digits := Nat.toDigits 10 n
  String.ofList (List.replicate (width - digits.length) '0' ++ digits)

def Date.text (d : Date) : String :=
  padded 4 d.year ++ "-" ++ padded 2 d.month ++ "-" ++ padded 2 d.day

/-- The fraction of a second without final zeros; nothing for a full second. -/
def fractionText (nanosecond : Nat) : String :=
  if nanosecond = 0 then ""
  else
    let digits := (padded 9 nanosecond).toList
    "." ++ String.ofList (digits.reverse.dropWhile (· == '0')).reverse

def Time.text (t : Time) : String :=
  padded 2 t.hour ++ ":" ++ padded 2 t.minute ++ ":" ++ padded 2 t.second ++
    fractionText t.nanosecond

/-- An offset as it is written; there is no negative zero. -/
def Offset.text : Offset → String
  | zulu => "Z"
  | minutes amount =>
    (if amount < 0 then "-" else "+") ++ padded 2 (amount.natAbs / 60) ++ ":" ++
      padded 2 (amount.natAbs % 60)

def Moment.text : Moment → String
  | day d => d.text
  | time t => t.text
  | both d t offset => d.text ++ "T" ++ t.text ++ (offset.map Offset.text).getD ""

/-- A value of a document. -/
inductive Value
  | string (text : String)
  | integer (n : Int)
  | float (x : Decimal)
  | boolean (b : Bool)
  | moment (m : Moment)
  | array (items : List Value)
  /-- Keys and values in the order in which they came to be; no key occurs twice. -/
  | table (entries : List (String × Value))

/-- Keys and values of a table. -/
abbrev Entries := List (String × Value)

def sortEntries (entries : Entries) : Entries :=
  entries.mergeSort fun a b => (compare a.1 b.1).isLE

end TermScan.Toml
