import TermScan.Automaton.Scan

/-!
# Cursors

A cursor scans a text only as far as it is asked to. It hands out the matches one by one, then the
failure of the scan if there is one, then nothing for ever, and can be sent back to the start.
-/
namespace TermScan

/-- A scan that stops at each match. -/
structure Cursor where
  input : String
  /-- What the whitelist suppresses in the text. -/
  whitelisted : IntervalSet
  /-- The characters still to be read. -/
  unread : List Site
  run : Run
  state : Automaton.State
  /-- Matches that have been found but not handed out. -/
  pending : List Match
  /-- Nothing more will be read. -/
  finished : Bool

namespace Automaton

def cursor (a : Automaton) (input : String) : Cursor where
  input := input
  whitelisted := a.whitelist.scan input.toList
  unread := sites input.toList
  run := a.pipeline.start
  state := a.start
  pending := []
  finished := false

end Automaton

namespace Cursor

/-- Everything has been handed out. -/
def isDone (c : Cursor) : Bool := c.finished && c.pending.isEmpty

def reset (c : Cursor) : Cursor :=
  { c with
    unread := sites c.input.toList, run := c.run.reset
    state := ⟨c.state.recent.clear, Trie.root, []⟩, pending := [], finished := false }

/-- The cursor that reads no further. -/
def finish (c : Cursor) (unread : List Site) (run : Run) (state : Automaton.State) : Cursor :=
  { c with unread, run, state := { state with walks := [] }, pending := [], finished := true }

/-- Reads on to the next match or failure. -/
def readOn (a : Automaton) (c : Cursor) (run : Run) (state : Automaton.State) :
    List Site → Option (Except Error Match) × Cursor
  | [] => (none, c.finish [] run state)
  | s :: rest =>
    match run.step s.char with
    | (none, run) => readOn a c run state rest
    | (some d, run) =>
      match a.step c.whitelisted state ⟨d, s⟩ with
      | none => (some (.error (a.limitError c.input ⟨d, s⟩)), c.finish rest run state)
      | some (state, []) => readOn a c run state rest
      | some (state, m :: pending) =>
        (some (.ok m), { c with unread := rest, run, state, pending })

/-- The next match, the failure of the scan, or nothing. -/
def next (c : Cursor) (a : Automaton) : Option (Except Error Match) × Cursor :=
  match c.pending with
  | m :: pending => (some (.ok m), { c with pending })
  | [] => if c.finished then (none, c) else readOn a c c.run c.state c.unread

/-- The next `n` results, or fewer if there are no more. -/
def take (c : Cursor) (a : Automaton) : Nat → List (Except Error Match) × Cursor
  | 0 => ([], c)
  | n + 1 =>
    match c.next a with
    | (none, c) => ([], c)
    | (some r, c) =>
      let (rest, c) := c.take a n
      (r :: rest, c)

theorem readOn_unread (a : Automaton) (c : Cursor) (run : Run) (state : Automaton.State)
    (unread : List Site) {m : Match} (h : (readOn a c run state unread).1 = some (.ok m)) :
    (readOn a c run state unread).2.unread.length < unread.length := by
  fun_induction readOn a c run state unread with
  | case1 => cases h
  | case2 run state s rest run' hstep ih => exact Nat.lt_succ_of_lt (ih h)
  | case3 => cases h
  | case4 run state s rest d run' hstep state' hread ih => exact Nat.lt_succ_of_lt (ih h)
  | case5 => exact Nat.lt_succ_self _

/-- With each match there is less to read, or less to hand out. -/
theorem next_decreases (c : Cursor) (a : Automaton) {m : Match}
    (h : (c.next a).1 = some (.ok m)) :
    (c.next a).2.unread.length < c.unread.length ∨
      (c.next a).2.unread.length = c.unread.length ∧
        (c.next a).2.pending.length < c.pending.length := by
  unfold next at h ⊢
  split at h
  · next pending hpending =>
    rw [hpending]
    exact .inr ⟨rfl, Nat.lt_succ_self _⟩
  · split at h
    · cases h
    · next hpending hfinished =>
      rw [hpending]
      rw [if_neg hfinished]
      exact .inl (readOn_unread a c c.run c.state c.unread h)

/-- All matches that are left; fails if what is handed out ends with a failure. -/
def drain (c : Cursor) (a : Automaton) : Except Error (List Match) :=
  match _h : c.next a with
  | (none, _) => .ok []
  | (some (.error e), _) => .error e
  | (some (.ok m), c') => (c'.drain a).map (m :: ·)
termination_by (c.unread.length, c.pending.length)
decreasing_by
  have hhead : (c.next a).1 = some (.ok m) := by rw [_h]
  have hless := c.next_decreases a hhead
  rw [_h] at hless
  exact Prod.lex_def.mpr hless

end Cursor

namespace Automaton

/-- All matches in a text, by position if `sorted`, as a cursor hands them out. -/
def collect (a : Automaton) (input : String) (sorted : Bool) : Except Error (List Match) :=
  ((a.cursor input).drain a).map fun found => if sorted then Match.sort found else found

/-- The first match in a text, if there is one; reads no further. -/
def firstMatch (a : Automaton) (input : String) : Except Error (Option Match) :=
  match ((a.cursor input).next a).1 with
  | none => .ok none
  | some (.ok m) => .ok (some m)
  | some (.error e) => .error e

def hasMatch (a : Automaton) (input : String) : Except Error Bool :=
  (a.firstMatch input).map Option.isSome

end Automaton

end TermScan
