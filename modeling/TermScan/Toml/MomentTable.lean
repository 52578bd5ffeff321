import TermScan.Toml.Clock

/-!
# Moments in the shape of tables

Where only tables are understood a moment is shown as a table with a key of its own, under which
its text is found. A table that begins with this key is in turn taken for a moment, so it has to
hold the text of one.
-/
namespace TermScan.Toml

/-- The key under which the text of a moment is found. -/
def momentKey : String := "$__toml_private_datetime"

/-- A moment in the shape of a table. -/
def Moment.entries (m : Moment) : Entries := [(momentKey, .string m.text)]

/-- The text is that of a moment, as a document would have it. -/
def isMomentText (text : String) : Bool := (readMoment text.toList).any (·.2.isEmpty)

/-- A table with these entries is taken for a moment. -/
def passesForMoment (entries : Entries) : Bool := entries.head?.any (·.1 == momentKey)

namespace Value

/-- A text that is that of a moment. -/
def namesMoment : Value → Bool
  | string text => isMomentText text
  | _ => false

/-- The entries of a table that is not taken for a moment. -/
def plainEntries? : Value → Option Entries
  | table entries => if passesForMoment entries then none else some entries
  | _ => none

mutual

/-- Every table in the value that is taken for a moment holds the text of one. What else such a
table holds does not matter. -/
def momentsHold : Value → Bool
  | array items => momentsHoldIn items
  | table entries =>
    if passesForMoment entries then entries.head?.any (·.2.namesMoment)
    else momentsHoldUnder entries
  | _ => true

def momentsHoldIn : List Value → Bool
  | [] => true
  | item :: rest => item.momentsHold && momentsHoldIn rest

def momentsHoldUnder : List (String × Value) → Bool
  | [] => true
  | (_, v) :: rest => v.momentsHold && momentsHoldUnder rest

end

end Value

end TermScan.Toml
