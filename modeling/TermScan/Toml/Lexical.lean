/-!
# Characters, blanks and comments of TOML

Readers take the text from where they stand and give what they read with the text behind it, or
nothing where the text is not as it should be.
-/
namespace TermScan.Toml

/-- What a reader found and the text behind it. -/
abbrev Found (α : Type) := α × List Char

def isBlank (c : Char) : Bool := c == ' ' || c == '\t'

/-- A character that may stand in a comment or a string: a tab, or no control character. -/
def isPlain (c : Char) : Bool := c == '\t' || (32 ≤ c.toNat && c.toNat != 127)

def isBareKeyChar (c : Char) : Bool := c.isAlphanum || c == '_' || c == '-'

/-- The text behind blanks. -/
def skipBlanks (text : List Char) : List Char := text.dropWhile isBlank

/-- The text behind a line break. -/
def lineBreak? : List Char → Option (List Char)
  | '\n' :: rest => some rest
  | '\r' :: '\n' :: rest => some rest
  | _ => none

/-- The text behind blanks and a comment. -/
def skipComment (text : List Char) : List Char :=
  match skipBlanks text with
  | '#' :: rest => rest.dropWhile isPlain
  | rest => rest

/-- The text behind the end of a line, which blanks and a comment may precede. -/
def lineEnd? (text : List Char) : Option (List Char) :=
  match skipComment text with
  | [] => some []
  | rest => lineBreak? rest

/-- The text behind blanks, comments and line breaks. A comment has to end with its line. -/
def skipGapsFrom (inComment : Bool) : List Char → Option (List Char)
  | [] => if inComment then none else some []
  | '\n' :: rest => skipGapsFrom false rest
  | '\r' :: '\n' :: rest => skipGapsFrom false rest
  | c :: rest =>
    if inComment then if isPlain c then skipGapsFrom true rest else none
    else if isBlank c then skipGapsFrom false rest
    else if c == '#' then skipGapsFrom true rest
    else some (c :: rest)

def skipGaps (text : List Char) : Option (List Char) := skipGapsFrom false text

/-- The text behind the given characters. -/
def skipExactly? : List Char → List Char → Option (List Char)
  | [], text => some text
  | c :: cs, d :: rest => if c = d then skipExactly? cs rest else none
  | _ :: _, [] => none

/-- The value of a digit in a base up to 16. -/
def digitValue? (base : Nat) (c : Char) : Option Nat :=
  let value :=
    if c.isDigit then c.toNat - 48
    else if 'a' ≤ c ∧ c ≤ 'f' then c.toNat - 87
    else if 'A' ≤ c ∧ c ≤ 'F' then c.toNat - 55
    else base
  if value < base then some value else none

/-- The number that exactly `count` digits stand for, behind the digits read as `value`. -/
def readFixedFrom (base value : Nat) : Nat → List Char → Option (Found Nat)
  | 0, text => some (value, text)
  | _ + 1, [] => none
  | count + 1, c :: rest =>
    match digitValue? base c with
    | some d => readFixedFrom base (value * base + d) count rest
    | none => none

def readFixed (base count : Nat) (text : List Char) : Option (Found Nat) :=
  readFixedFrom base 0 count text

/-- The values of the digits from here on; single underscores may stand between digits. -/
def moreDigits (base : Nat) : List Char → List Nat × List Char
  | [] => ([], [])
  | '_' :: c :: rest =>
    match digitValue? base c with
    | some d =>
      let (ds, behind) := moreDigits base rest
      (d :: ds, behind)
    | none => ([], '_' :: c :: rest)
  | c :: rest =>
    match digitValue? base c with
    | some d =>
      let (ds, behind) := moreDigits base rest
      (d :: ds, behind)
    | none => ([], c :: rest)

/-- The values of one or more digits; single underscores may stand between them. -/
def readDigits (base : Nat) : List Char → Option (Found (List Nat))
  | [] => none
  | c :: rest =>
    match digitValue? base c with
    | some d =>
      let (ds, behind) := moreDigits base rest
      some (d :: ds, behind)
    | none => none

/-- The number that digits stand for. -/
def ofDigits (base : Nat) (digits : List Nat) : Nat := digits.foldl (fun n d => n * base + d) 0

end TermScan.Toml
