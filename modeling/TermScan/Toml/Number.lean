import TermScan.Toml.Lexical
import TermScan.Toml.Value

/-!
# Numbers of TOML

Integers in four bases that fit into 64 bits with a sign, and decimal fractions. A decimal number
has no superfluous zero in front.
-/
namespace TermScan.Toml

/-- A sign, if there is one; true for a minus. -/
def readSign : List Char → Option Bool × List Char
  | '+' :: rest => (some false, rest)
  | '-' :: rest => (some true, rest)
  | text => (none, text)

/-- The digits before the point: a lone zero, or digits that begin with another one. -/
def readWhole : List Char → Option (Found (List Nat))
  | '0' :: rest => some ([0], rest)
  | text => readDigits 10 text

/-- The digits behind a point, if there is one. -/
def readFraction : List Char → Option (Found (Option (List Nat)))
  | '.' :: rest => (readDigits 10 rest).map fun (ds, behind) => (some ds, behind)
  | text => some (none, text)

/-- The exponent behind an `e`, if there is one. -/
def readExponent : List Char → Option (Found (Option Int))
  | c :: rest =>
    if c = 'e' ∨ c = 'E' then
      let (sign, digits) := readSign rest
      (readDigits 10 digits).map fun (ds, behind) =>
        let n : Int := ofDigits 10 ds
        (some (if sign = some true then -n else n), behind)
    else some (none, c :: rest)
  | [] => some (none, [])

/-- An integer that fits into 64 bits with a sign. -/
def integer? (n : Int) : Option Value :=
  if -9223372036854775808 ≤ n ∧ n ≤ 9223372036854775807 then some (.integer n) else none

/-- A fraction. One that no double comes near is refused, unless it is negative. -/
def fraction? (negative : Bool) (mantissa : Nat) (exponent : Int) : Option Value :=
  if !negative && Decimal.exceedsDoubles mantissa exponent then none
  else some (.float (.finite negative mantissa exponent))

/-- A decimal number behind its sign. -/
def readDecimal (negative : Bool) (text : List Char) : Option (Found Value) := do
  let (whole, text) ← readWhole text
  let (fraction, text) ← readFraction text
  let (exponent, text) ← readExponent text
  match fraction, exponent with
  | none, none =>
    let n : Int := ofDigits 10 whole
    let value ← integer? (if negative then -n else n)
    return (value, text)
  | _, _ =>
    let places := fraction.getD []
    let mantissa := ofDigits 10 (whole ++ places)
    let value ← fraction? negative mantissa (exponent.getD 0 - places.length)
    return (value, text)

/-- An integer in another base behind its mark. -/
def readInBase (base : Nat) (text : List Char) : Option (Found Value) := do
  let (digits, text) ← readDigits base text
  let value ← integer? (ofDigits base digits)
  return (value, text)

/-- A number of any form. Only decimal numbers and the named ones have a sign. -/
def readNumber : List Char → Option (Found Value)
  | '0' :: 'x' :: rest => readInBase 16 rest
  | '0' :: 'o' :: rest => readInBase 8 rest
  | '0' :: 'b' :: rest => readInBase 2 rest
  | text =>
    let (sign, unsigned) := readSign text
    let negative := sign == some true
    match unsigned with
    | 'i' :: 'n' :: 'f' :: rest => some (.float (.infinite negative), rest)
    | 'n' :: 'a' :: 'n' :: rest => some (.float .nan, rest)
    | _ => readDecimal negative unsigned

end TermScan.Toml
