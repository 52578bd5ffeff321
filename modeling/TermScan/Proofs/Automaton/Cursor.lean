import Mathlib.Data.List.Basic
import TermScan.Automaton.Cursor
import TermScan.Proofs.Transform.Runs

/-!
# A cursor hands out the scan

What a cursor has still to hand out is a list: the pending matches, then those of a scan of the
unread characters, then its failure. Asking for the next result takes the head of this list, and
nothing is left once it is empty.
-/
namespace TermScan

/-- The results of a scan: its matches, then its failure if there is one. -/
def results (scanned : List Match × Option Error) : List (Except Error Match) :=
  scanned.1.map .ok ++ scanned.2.toList.map .error

namespace Cursor

variable {a : Automaton}

/-- What a cursor has still to hand out. -/
def remaining (a : Automaton) (c : Cursor) : List (Except Error Match) :=
  c.pending.map .ok ++
    if c.finished then []
    else results (a.scanFrom c.input c.whitelisted c.state (c.run.readSites c.unread).1)

theorem remaining_finish (c : Cursor) (unread : List Site) (run : Run) (state : Automaton.State) :
    (c.finish unread run state).remaining a = [] := by
  simp [remaining, finish]

/-- Reading on stops at the first result of the scan and leaves the others. -/
theorem readOn_spec (c : Cursor) (hunfinished : c.finished = false) (run : Run)
    (state : Automaton.State) (unread : List Site) :
    let left := results (a.scanFrom c.input c.whitelisted state (run.readSites unread).1)
    (readOn a c run state unread).1 = left.head? ∧
      (readOn a c run state unread).2.remaining a = left.tail := by
  induction unread generalizing run state with
  | nil =>
    rw [readOn, Run.readSites, Automaton.scanFrom]
    exact ⟨rfl, c.remaining_finish [] run state⟩
  | cons s unread ih =>
    rw [readOn, Run.readSites]
    rcases hstep : run.step s.char with ⟨_ | d, run'⟩
    · exact ih run' state
    · simp only [Automaton.scanFrom]
      cases hread : a.step c.whitelisted state ⟨d, s⟩ with
      | none => exact ⟨rfl, c.remaining_finish unread run' state⟩
      | some next =>
        obtain ⟨state', found⟩ := next
        cases found with
        | nil => exact ih run' state'
        | cons m pending =>
          refine ⟨rfl, ?_⟩
          simp [remaining, results, hunfinished]

theorem next_spec (c : Cursor) :
    (c.next a).1 = (c.remaining a).head? ∧ (c.next a).2.remaining a = (c.remaining a).tail := by
  rw [next]
  cases hpending : c.pending with
  | cons m pending => simp [remaining, hpending]
  | nil =>
    cases hfinished : c.finished with
    | true => simp [remaining, hpending, hfinished]
    | false =>
      have hspec := readOn_spec (a := a) c hfinished c.run c.state c.unread
      simpa [remaining, hpending, hfinished] using hspec

/-- Taking results hands out the first of what remains. -/
theorem take_spec (c : Cursor) (n : Nat) :
    (c.take a n).1 = (c.remaining a).take n ∧
      (c.take a n).2.remaining a = (c.remaining a).drop n := by
  induction n generalizing c with
  | zero => exact ⟨rfl, rfl⟩
  | succ n ih =>
    obtain ⟨hhead, htail⟩ := c.next_spec (a := a)
    rw [take]
    rcases hnext : c.next a with ⟨_ | r, c'⟩
    · rw [hnext] at hhead htail
      have hnone : c.remaining a = [] := List.head?_eq_none_iff.mp hhead.symm
      simpa [hnone] using htail
    · rw [hnext] at hhead htail
      obtain ⟨rest, hrest⟩ : ∃ rest, c.remaining a = r :: rest :=
        List.head?_eq_some_iff.mp hhead.symm
      obtain ⟨hrun, hleft⟩ := ih c'
      rw [htail, hrest, List.tail_cons] at hrun hleft
      rw [hrest]
      exact ⟨congrArg (r :: ·) hrun, hleft⟩

/-- A fresh cursor has the whole scan to hand out. -/
theorem remaining_cursor (a : Automaton) (input : String) :
    (a.cursor input).remaining a = results (a.scan input) := by
  rw [Automaton.scan, Pipeline.apply_eq]
  rfl

end Cursor

end TermScan
