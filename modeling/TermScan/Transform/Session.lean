import TermScan.Transform.Pipeline

/-!
# Sessions with runs

Any number of runs of a pipeline may be at work, and over any of them an iterator may be open that
nobody reads to its end. A session is a list of calls, each of them made to one of the runs, in
whatever order the callers come.
-/
namespace TermScan

/-- Reads sites up to the first character that is kept, and leaves those behind it. -/
def Run.next (r : Run) : List Site → Option Mapped × Run × List Site
  | [] => (none, r, [])
  | s :: rest =>
    match r.step s.char with
    | (none, r) => r.next rest
    | (some c, r) => (some ⟨c, s⟩, r, rest)

/-- A run, and the iterator that is open over it. -/
structure Reader where
  run : Run
  /-- What the iterator has not read; nothing where none is open. -/
  unread : List Site

namespace Reader

def start (p : Pipeline) : Reader := ⟨p.start, []⟩

/-- What a run can be asked. All calls but `next` close an iterator that is open. -/
inductive Call
  | transform (c : Char)
  | reset
  | apply (text : List Char)
  /-- Opens an iterator over a text. -/
  | chars (text : List Char)
  /-- Takes one item from the open iterator. -/
  | next
  deriving DecidableEq, Repr

/-- What a run replies. -/
inductive Reply
  | done
  | char (c : Option Char)
  | text (kept : List Mapped)
  | item (m : Option Mapped)
  deriving DecidableEq, Repr

def call (r : Reader) : Call → Reply × Reader
  | .transform c =>
    let (out, run) := r.run.step c
    (.char out, ⟨run, []⟩)
  | .reset => (.done, ⟨r.run.reset, []⟩)
  | .apply text =>
    let (kept, run) := r.run.apply text
    (.text kept, ⟨run, []⟩)
  | .chars text => (.done, ⟨r.run.reset, sites text⟩)
  | .next =>
    let (m, run, unread) := r.run.next r.unread
    (.item m, ⟨run, unread⟩)

/-- Makes calls in order, each to the run it names, and gives the replies. -/
def session {n : Nat} (readers : Vector Reader n) :
    List (Fin n × Call) → List (Fin n × Reply) × Vector Reader n
  | [] => ([], readers)
  | (k, call) :: rest =>
    let (reply, r) := (readers.get k).call call
    let (replies, readers) := session (readers.set k r k.isLt) rest
    ((k, reply) :: replies, readers)

end Reader

end TermScan
