import TermScan.Toml.Lexical

/-!
# Quoted texts of TOML

Four kinds of quoted text, which differ in the quotation mark, in whether a backslash escapes, and
in whether the text may span lines between threefold marks. All are read one character at a time
by one machine.
-/
namespace TermScan.Toml

/-- A kind of quoted text. -/
structure Quoting where
  mark : Char
  escapes : Bool
  /-- Spans lines, between threefold marks. -/
  long : Bool

/-- Where the reading of a quoted text stands. -/
inductive QuotedState
  | plain
  /-- Behind a carriage return that must belong to a line break of the text. -/
  | carriage
  /-- Behind so many marks of a long text. -/
  | marks (count : Nat)
  | backslash
  /-- In an escape that lacks `missing` digits more. -/
  | digits (missing value : Nat)
  /-- Behind a backslash and blanks, where only a line break may follow. -/
  | lineToFold
  /-- In the white space behind a folded line break, which does not count. -/
  | folded
  /-- Behind a carriage return that must belong to a folded line break. -/
  | foldedCarriage

/-- What a character does. -/
inductive QuotedStep
  /-- The text goes on with these characters. -/
  | more (out : List Char) (next : QuotedState)
  /-- The text ended with these characters, before or behind the character. -/
  | closed (out : List Char) (behind : Bool)
  | refused

/-- What a character stands for behind a backslash. -/
def escaped? : Char → Option Char
  | 'b' => some '\x08'
  | 't' => some '\t'
  | 'n' => some '\n'
  | 'f' => some '\x0c'
  | 'r' => some '\r'
  | '\\' => some '\\'
  | '\x22' => some '\x22'
  | _ => none

namespace Quoting

/-- A character that nothing precedes that it belongs to. -/
def stepPlain (q : Quoting) (out : List Char) (c : Char) : QuotedStep :=
  if c = q.mark then if q.long then .more out (.marks 1) else .closed out true
  else if q.escapes && c == '\\' then .more out .backslash
  else if q.long && c == '\n' then .more (out ++ ['\n']) .plain
  else if q.long && c == '\r' then .more out .carriage
  else if isPlain c then .more (out ++ [c]) .plain
  else .refused

/-- A character behind a backslash. -/
def stepBackslash (q : Quoting) (c : Char) : QuotedStep :=
  if q.long && isBlank c then .more [] .lineToFold
  else if q.long && c == '\n' then .more [] .folded
  else if q.long && c == '\r' then .more [] .foldedCarriage
  else if c = 'u' then .more [] (.digits 4 0)
  else if c = 'U' then .more [] (.digits 8 0)
  else
    match escaped? c with
    | some d => .more [d] .plain
    | none => .refused

/-- A digit of an escape; with the last one the escape has to name a character. -/
def stepDigit (missing value : Nat) (c : Char) : QuotedStep :=
  match digitValue? 16 c with
  | none => .refused
  | some d =>
    let value := value * 16 + d
    if 1 < missing then .more [] (.digits (missing - 1) value)
    else if value.isValidChar then .more [Char.ofNat value] .plain
    else .refused

/-- One character. Three marks end a long text, and up to two right before them belong to it. -/
def step (q : Quoting) (state : QuotedState) (c : Char) : QuotedStep :=
  match state with
  | .plain => q.stepPlain [] c
  | .carriage => if c = '\n' then .more ['\n'] .plain else .refused
  | .marks count =>
    if c = q.mark then
      if count < 4 then .more [] (.marks (count + 1)) else .closed [q.mark, q.mark] true
    else if count < 3 then q.stepPlain (List.replicate count q.mark) c
    else .closed (List.replicate (count - 3) q.mark) false
  | .backslash => q.stepBackslash c
  | .digits missing value => stepDigit missing value c
  | .lineToFold =>
    if isBlank c then .more [] .lineToFold
    else if c = '\n' then .more [] .folded
    else if c = '\r' then .more [] .foldedCarriage
    else .refused
  | .folded =>
    if isBlank c || c == '\n' then .more [] .folded
    else if c = '\r' then .more [] .foldedCarriage
    else q.stepPlain [] c
  | .foldedCarriage => if c = '\n' then .more [] .folded else .refused

/-- The characters of a quoted text from a state on. -/
def readFrom (q : Quoting) (state : QuotedState) : List Char → Option (Found (List Char))
  | [] =>
    match state with
    | .marks count => if count < 3 then none else some (List.replicate (count - 3) q.mark, [])
    | _ => none
  | c :: rest =>
    match q.step state c with
    | .more out next => (q.readFrom next rest).map fun (text, behind) => (out ++ text, behind)
    | .closed out behind => some (out, if behind then rest else c :: rest)
    | .refused => none

/-- A quoted text, from behind its opening marks. A line break right there does not count in a
long text. -/
def read (q : Quoting) (text : List Char) : Option (Found String) :=
  let body := if q.long then (lineBreak? text).getD text else text
  (q.readFrom .plain body).map fun (chars, behind) => (String.ofList chars, behind)

end Quoting

/-- A quoted text within a line. -/
def readShortQuoted : List Char → Option (Found String)
  | '\x22' :: rest => Quoting.read ⟨'\x22', true, false⟩ rest
  | '\x27' :: rest => Quoting.read ⟨'\x27', false, false⟩ rest
  | _ => none

def readQuoted : List Char → Option (Found String)
  | '\x22' :: '\x22' :: '\x22' :: rest => Quoting.read ⟨'\x22', true, true⟩ rest
  | '\x27' :: '\x27' :: '\x27' :: rest => Quoting.read ⟨'\x27', false, true⟩ rest
  | text => readShortQuoted text

end TermScan.Toml
