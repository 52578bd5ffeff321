import TermScan.Automaton.Cursor

/-!
# Sessions

Any number of cursors may be at work over one automaton. A session is a list of calls, each of
them made to one of the cursors, in whatever order the callers come.
-/
namespace TermScan

namespace Cursor

/-- What a cursor can be asked. -/
inductive Call
  | next
  /-- At most so many results, one after another. -/
  | take (count : Nat)
  | reset
  | isDone
  | input
  deriving DecidableEq, Repr

/-- What a cursor replies. -/
inductive Reply
  | result (r : Option (Except Error Match))
  | results (rs : List (Except Error Match))
  | flag (b : Bool)
  | text (s : String)
  | done

def call (a : Automaton) (c : Cursor) : Call → Reply × Cursor
  | .next =>
    let (r, c) := c.next a
    (.result r, c)
  | .take count =>
    let (rs, c) := c.take a count
    (.results rs, c)
  | .reset => (.done, c.reset)
  | .isDone => (.flag c.isDone, c)
  | .input => (.text c.input, c)

end Cursor

/-- Makes calls in order, each to the cursor it names, and gives the replies. -/
def Automaton.session (a : Automaton) {n : Nat} (cursors : Vector Cursor n) :
    List (Fin n × Cursor.Call) → List (Fin n × Cursor.Reply) × Vector Cursor n
  | [] => ([], cursors)
  | (k, call) :: rest =>
    let (reply, c) := (cursors.get k).call a call
    let (replies, cursors) := a.session (cursors.set k c) rest
    ((k, reply) :: replies, cursors)

end TermScan
