import TermScan.Automaton.Session
import TermScan.Proofs.Automaton.Cursor
import TermScan.Proofs.Ring

/-!
# Cursors keep to themselves

The results a cursor gives from its start on are those of one scan, and a reset brings it back to
its start: whatever it has read meanwhile, its text, its whitelist, the thresholds of its
transformers and the reach of its memory are what they were. So the replies of a cursor can be
told from the calls made to it alone, with no cursor at hand.
-/
namespace TermScan

/-! What is expected -/

/-- A result after which only nothing follows: a failure, or nothing itself. -/
def isLastResult : Option (Except Error Match) → Bool
  | some (.ok _) => false
  | _ => true

namespace Automaton

/-- All results for a text: the matches of a fresh scan, then its failure if there is one. -/
def outcome (a : Automaton) (input : String) : List (Except Error Match) := results (a.scan input)

/-- The reply to a call after `n` results, and the number of results given then. Taking results
goes on until the count is reached or nothing is given, which counts as a result. -/
def expected (a : Automaton) (input : String) (n : Nat) : Cursor.Call → Cursor.Reply × Nat
  | .next => (.result (a.outcome input)[n]?, n + 1)
  | .take count =>
    (.results (((a.outcome input).drop n).take count),
      n + min count ((a.outcome input).length - n + 1))
  | .reset => (.done, 0)
  | .isDone => (.flag ((List.range n).any fun i => isLastResult (a.outcome input)[i]?), n)
  | .input => (.text input, n)

/-- The replies to calls in order, the first of them after `n` results. -/
def expectedReplies (a : Automaton) (input : String) (n : Nat) :
    List Cursor.Call → List Cursor.Reply
  | [] => []
  | call :: rest =>
    let (reply, n) := a.expected input n call
    reply :: a.expectedReplies input n rest

/-- The entries of a session that belong to one cursor. -/
def own {α : Type} {n : Nat} (k : Fin n) (entries : List (Fin n × α)) : List α :=
  entries.filterMap fun e => if e.1 = k then some e.2 else none

section Own

variable {α : Type} {n : Nat} {j k : Fin n} (x : α) (entries : List (Fin n × α))

theorem own_cons_self : own k ((k, x) :: entries) = x :: own k entries := by simp [own]

theorem own_cons_ne (h : j ≠ k) : own k ((j, x) :: entries) = own k entries := by simp [own, h]

end Own

end Automaton

/-! The way back -/

theorem Stage.reset_step (s : Stage) (c : Char) : (s.step c).2.reset = s.reset := by
  cases s <;> rfl

theorem Run.reset_step (r : Run) (c : Char) : (r.step c).2.reset = r.reset := by
  have stages (l : List Stage) (c : Char) :
      (stepStages c l).2.map Stage.reset = l.map Stage.reset := by
    induction l generalizing c with
    | nil => rfl
    | cons s rest ih =>
      have hs := s.reset_step c
      rw [stepStages]
      rcases hstep : s.step c with ⟨_ | d, s'⟩
      · rw [hstep] at hs
        simp [hs]
      · rw [hstep] at hs
        simp [hs, ih d]
  exact congrArg Run.mk (stages r.stages c)

/-- A ring that has been cleared is as good as new. -/
theorem Ring.clear_eq_empty {α : Type} {r : Ring α} {capacity : Nat}
    (h : r.capacity = max 1 capacity) : r.clear = empty capacity := by
  simp [clear, empty, h]

theorem Automaton.capacity_step {a : Automaton} {whitelisted : IntervalSet} {s s' : State}
    {m : Mapped} {found : List Match} (h : a.step whitelisted s m = some (s', found)) :
    s'.recent.capacity = s.recent.capacity := by
  simp only [step] at h
  split_ifs at h
  obtain ⟨rfl, -⟩ := Prod.mk.inj (Option.some.inj h)
  rfl

namespace Cursor

variable {a : Automaton} {input : String} {c : Cursor}

/-- What a cursor needs to get back to the start of its text is in place. -/
structure Anchored (a : Automaton) (input : String) (c : Cursor) : Prop where
  input_eq : c.input = input
  whitelisted_eq : c.whitelisted = a.whitelist.scan input.toList
  run_eq : c.run.reset = a.pipeline.start
  capacity_eq : c.state.recent.capacity = max 1 a.longest

theorem anchored_cursor (a : Automaton) (input : String) : (a.cursor input).Anchored a input :=
  ⟨rfl, rfl, a.pipeline.reset_start, rfl⟩

theorem Anchored.reset_eq (h : c.Anchored a input) : c.reset = a.cursor input := by
  rw [reset, Ring.clear_eq_empty h.capacity_eq, h.run_eq, h.input_eq, h.whitelisted_eq]
  rfl

/-- Reading on leads to the end of the scan, which the result tells, or stops at the matches of some
character. Wherever it stops, the way back is the same. -/
theorem readOn_cases (a : Automaton) (c : Cursor) (run : Run) (state : Automaton.State)
    (unread : List Site) :
    ∃ unread' run' state', Run.reset run' = run.reset ∧
      state'.recent.capacity = state.recent.capacity ∧
      (isLastResult (readOn a c run state unread).1 = true ∧
          (readOn a c run state unread).2 = c.finish unread' run' state' ∨
        isLastResult (readOn a c run state unread).1 = false ∧ ∃ pending,
          (readOn a c run state unread).2 =
            { c with unread := unread', run := run', state := state', pending }) := by
  induction unread generalizing run state with
  | nil => exact ⟨[], run, state, rfl, rfl, .inl ⟨rfl, rfl⟩⟩
  | cons s unread ih =>
    have hreset := run.reset_step s.char
    rw [readOn]
    rcases hstep : run.step s.char with ⟨_ | d, run'⟩ <;> rw [hstep] at hreset
    · obtain ⟨unread', run'', state', hrun, hstate, hstop⟩ := ih run' state
      exact ⟨unread', run'', state', hrun.trans hreset, hstate, hstop⟩
    · simp only
      rcases hread : a.step c.whitelisted state ⟨d, s⟩ with _ | ⟨state', found⟩
      · exact ⟨unread, run', state, hreset, rfl, .inl ⟨rfl, rfl⟩⟩
      · have hcapacity := Automaton.capacity_step hread
        cases found with
        | nil =>
          obtain ⟨unread', run'', state'', hrun, hstate, hstop⟩ := ih run' state'
          exact ⟨unread', run'', state'', hrun.trans hreset, hstate.trans hcapacity, hstop⟩
        | cons m pending =>
          exact ⟨unread, run', state', hreset, hcapacity, .inr ⟨rfl, pending, rfl⟩⟩

theorem Anchored.next (h : c.Anchored a input) : (c.next a).2.Anchored a input := by
  rw [Cursor.next]
  split
  · exact ⟨h.input_eq, h.whitelisted_eq, h.run_eq, h.capacity_eq⟩
  · split_ifs
    · exact h
    · obtain ⟨unread, run, state, hrun, hstate, hstop⟩ := readOn_cases a c c.run c.state c.unread
      have hrun := hrun.trans h.run_eq
      have hstate := hstate.trans h.capacity_eq
      rcases hstop with ⟨-, hc⟩ | ⟨-, pending, hc⟩
      · rw [hc]
        exact ⟨h.input_eq, h.whitelisted_eq, hrun, hstate⟩
      · rw [hc]
        exact ⟨h.input_eq, h.whitelisted_eq, hrun, hstate⟩

/-- A cursor is finished from a last result on, and then holds nothing back. -/
theorem next_finished (hpending : c.finished = true → c.pending = []) :
    (c.next a).2.finished = (c.finished || isLastResult (c.next a).1) ∧
      ((c.next a).2.finished = true → (c.next a).2.pending = []) := by
  rw [next]
  cases hlist : c.pending with
  | cons m pending =>
    have hunfinished : c.finished = false := by
      by_contra h
      simp [hpending (by simpa using h)] at hlist
    simp [hunfinished, isLastResult]
  | nil =>
    cases hfinished : c.finished with
    | true => simp [hfinished, hlist]
    | false =>
      obtain ⟨unread, run, state, -, -, hstop⟩ := readOn_cases a c c.run c.state c.unread
      rcases hstop with ⟨hlast, hc⟩ | ⟨hlast, pending, hc⟩
      · simp [hlast, hc, finish]
      · simp [hlast, hc, hfinished]

/-! Calls -/

/-- A cursor that has given `n` results since it started. -/
structure After (a : Automaton) (input : String) (n : Nat) (c : Cursor) : Prop extends
    c.Anchored a input where
  remaining_eq : c.remaining a = (a.outcome input).drop n
  finished_eq : c.finished = (List.range n).any fun i => isLastResult (a.outcome input)[i]?
  pending_eq : c.finished = true → c.pending = []

theorem after_cursor (a : Automaton) (input : String) : (a.cursor input).After a input 0 where
  toAnchored := anchored_cursor a input
  remaining_eq := remaining_cursor a input
  finished_eq := rfl
  pending_eq _ := rfl

variable {n : Nat}

theorem After.isDone_eq (h : c.After a input n) :
    c.isDone = (List.range n).any fun i => isLastResult (a.outcome input)[i]? := by
  rw [← h.finished_eq, isDone]
  cases hfinished : c.finished with
  | false => rfl
  | true => simp [h.pending_eq hfinished]

theorem After.next (h : c.After a input n) :
    (c.next a).1 = (a.outcome input)[n]? ∧ (c.next a).2.After a input (n + 1) := by
  obtain ⟨hhead, htail⟩ := c.next_spec (a := a)
  obtain ⟨hfinished, hempty⟩ := next_finished (a := a) h.pending_eq
  rw [h.remaining_eq, List.head?_drop] at hhead
  refine ⟨hhead, h.toAnchored.next, ?_, ?_, hempty⟩
  · rw [htail, h.remaining_eq, List.tail_drop]
  · rw [hfinished, h.finished_eq, hhead, List.range_succ, List.any_append]
    simp

theorem After.take (h : c.After a input n) (count : Nat) :
    (c.take a count).1 = ((a.outcome input).drop n).take count ∧
      (c.take a count).2.After a input (n + min count ((a.outcome input).length - n + 1)) := by
  refine ⟨h.remaining_eq ▸ (c.take_spec count).1, ?_⟩
  induction count generalizing c n with
  | zero => simpa [Cursor.take] using h
  | succ count ih =>
    obtain ⟨hresult, hafter⟩ := h.next
    rw [Cursor.take]
    rcases hnext : c.next a with ⟨_ | r, c'⟩ <;> rw [hnext] at hresult hafter
    · have hlength := List.getElem?_eq_none_iff.mp hresult.symm
      rw [show n + min (count + 1) ((a.outcome input).length - n + 1) = n + 1 by omega]
      exact hafter
    · obtain ⟨hlt, -⟩ := List.getElem?_eq_some_iff.mp hresult.symm
      rw [show n + min (count + 1) ((a.outcome input).length - n + 1) =
        n + 1 + min count ((a.outcome input).length - (n + 1) + 1) by omega]
      exact ih hafter

/-- Whatever is called, the reply is the expected one. -/
theorem After.call (h : c.After a input n) (call : Call) :
    (c.call a call).1 = (a.expected input n call).1 ∧
      (c.call a call).2.After a input (a.expected input n call).2 := by
  cases call with
  | next =>
    obtain ⟨hresult, hafter⟩ := h.next
    exact ⟨congrArg Reply.result hresult, hafter⟩
  | take count =>
    obtain ⟨hresults, hafter⟩ := h.take count
    exact ⟨congrArg Reply.results hresults, hafter⟩
  | reset =>
    refine ⟨rfl, ?_⟩
    change c.reset.After a input 0
    rw [h.reset_eq]
    exact after_cursor a input
  | isDone => exact ⟨congrArg Reply.flag h.isDone_eq, h⟩
  | input => exact ⟨congrArg Reply.text h.input_eq, h⟩

end Cursor

namespace Automaton

variable {n : Nat}

/-- A call to one cursor leaves the others as they are, so each goes on from where it is. -/
theorem session_after (a : Automaton) (inputs : Vector String n) (k : Fin n)
    {cursors : Vector Cursor n} {given : Nat} (h : (cursors.get k).After a (inputs.get k) given)
    (calls : List (Fin n × Cursor.Call)) :
    own k (a.session cursors calls).1 = a.expectedReplies (inputs.get k) given (own k calls) ∧
      ∃ given, ((a.session cursors calls).2.get k).After a (inputs.get k) given := by
  induction calls generalizing cursors given with
  | nil => exact ⟨rfl, given, h⟩
  | cons entry calls ih =>
    obtain ⟨j, call⟩ := entry
    simp only [session]
    by_cases hj : j = k
    · subst hj
      obtain ⟨hreply, hafter⟩ := h.call call
      have hnext : (cursors.set j ((cursors.get j).call a call).2).get j =
          ((cursors.get j).call a call).2 := Vector.getElem_set_self _
      obtain ⟨hreplies, hlast⟩ := ih (hnext ▸ hafter)
      rw [own_cons_self, own_cons_self, expectedReplies, hreply, hreplies]
      exact ⟨rfl, hlast⟩
    · have hsame : (cursors.set j ((cursors.get j).call a call).2).get k = cursors.get k :=
        Vector.getElem_set_ne _ _ fun heq => hj (Fin.ext heq)
      rw [own_cons_ne _ _ hj, own_cons_ne _ _ hj]
      exact ih (hsame ▸ h)

/-- However calls to cursors over one automaton are interleaved, the replies of each are those
expected of a cursor on its text from the calls made to it, and what the whitelist suppresses for it
does not change. -/
theorem session_exact (a : Automaton) (inputs : Vector String n)
    (calls : List (Fin n × Cursor.Call)) (k : Fin n) :
    own k (a.session (inputs.map a.cursor) calls).1 =
        a.expectedReplies (inputs.get k) 0 (own k calls) ∧
      ((a.session (inputs.map a.cursor) calls).2.get k).whitelisted =
        a.whitelist.scan (inputs.get k).toList := by
  have hstart : (inputs.map a.cursor).get k = a.cursor (inputs.get k) := Vector.getElem_map _ _
  obtain ⟨hreplies, _, hafter⟩ :=
    a.session_after inputs k (hstart ▸ Cursor.after_cursor a (inputs.get k)) calls
  exact ⟨hreplies, hafter.whitelisted_eq⟩

end Automaton

end TermScan
