import Mathlib.Data.List.Infix
import TermScan.Transform.Session
import TermScan.Proofs.Automaton.Session
import TermScan.Proofs.Transform.Runs

/-!
# Runs carry no history

The state of a run is told by the characters that it has read since it was reset. An iterator that
has given so many items has read the shortest prefix of its text that makes them, and not a
character more. So whatever calls have been made to a run, and to others in between, it transforms a
text as a fresh run does.
-/
namespace TermScan

namespace Run

/-! Character by character -/

/-- The characters that are kept of those that are read in order. -/
def kept (r : Run) (text : List Char) : List Char := (r.feed text).1.reduceOption

theorem feed_cons (r : Run) (c : Char) (text : List Char) :
    r.feed (c :: text) =
      ((r.step c).1 :: ((r.step c).2.feed text).1, ((r.step c).2.feed text).2) := rfl

theorem kept_cons (r : Run) (c : Char) (text : List Char) :
    r.kept (c :: text) = (r.step c).1.toList ++ (r.step c).2.kept text := by
  rw [kept, kept, feed_cons]
  cases (r.step c).1 <;> rfl

theorem feed_append (r : Run) (front back : List Char) :
    (r.feed (front ++ back)).2 = ((r.feed front).2.feed back).2 := by
  induction front generalizing r with
  | nil => rfl
  | cons c front ih => exact ih (r.step c).2

theorem reset_feed (r : Run) (text : List Char) : (r.feed text).2.reset = r.reset := by
  induction text generalizing r with
  | nil => rfl
  | cons c text ih =>
    rw [feed_cons, ih]
    exact r.reset_step c

/-- Reading sites keeps the characters that reading their characters keeps, and leads to the same
state. -/
theorem readSites_eq_feed (r : Run) (places : List Site) :
    (r.readSites places).1.map Mapped.char = r.kept (places.map Site.char) ∧
      (r.readSites places).2 = (r.feed (places.map Site.char)).2 := by
  induction places generalizing r with
  | nil => exact ⟨rfl, rfl⟩
  | cons s places ih =>
    rw [List.map_cons, readSites, kept_cons, feed_cons]
    rcases r.step s.char with ⟨_ | c, r'⟩
    · exact ih r'
    · exact ⟨congrArg (c :: ·) (ih r').1, (ih r').2⟩

/-! The shortest prefix -/

/-- The shortest prefix of a text of which at least `count` characters are kept; the whole text
where there is none. -/
def shortest (r : Run) (count : Nat) (text : List Char) : List Char :=
  (text.inits.find? fun front => count ≤ (r.kept front).length).getD text

@[simp] theorem shortest_zero (r : Run) (text : List Char) : r.shortest 0 text = [] := by
  cases text <;> simp [shortest]

@[simp] theorem shortest_succ_nil (r : Run) (count : Nat) : r.shortest (count + 1) [] = [] := by
  rw [shortest, List.inits, List.find?_singleton]
  split_ifs <;> rfl

theorem shortest_succ_cons (r : Run) (count : Nat) (c : Char) (text : List Char) :
    r.shortest (count + 1) (c :: text) =
      c :: (r.step c).2.shortest (if (r.step c).1.isSome then count else count + 1) text := by
  have hempty : ¬count + 1 ≤ (r.kept []).length := Nat.not_succ_le_zero count
  have hstep (front : List Char) : count + 1 ≤ (r.kept (c :: front)).length ↔
      (if (r.step c).1.isSome then count else count + 1) ≤ ((r.step c).2.kept front).length := by
    rw [kept_cons]
    cases (r.step c).1 <;> simp
  simp only [shortest, List.inits_cons, List.find?_cons, hempty, decide_false, List.find?_map,
    Function.comp_def, hstep]
  cases List.find? _ text.inits <;> rfl

/-- A prefix of a text makes `count` characters, or all there are, and no shorter one does. -/
structure IsShortest (r : Run) (count : Nat) (text front : List Char) : Prop where
  within : front <+: text
  length_kept : (r.kept front).length = min count (r.kept text).length
  least : ∀ other, other <+: text → count ≤ (r.kept other).length → front.length ≤ other.length
  whole : (r.kept text).length < count → front = text

theorem isShortest_zero (r : Run) (text : List Char) : r.IsShortest 0 text [] where
  within := List.nil_prefix
  length_kept := by rw [Nat.zero_min]; rfl
  least _ _ _ := Nat.zero_le _
  whole h := absurd h (Nat.not_lt_zero _)

theorem isShortest_shortest (r : Run) (count : Nat) (text : List Char) :
    r.IsShortest count text (r.shortest count text) := by
  induction text generalizing r count with
  | nil =>
    cases count with
    | zero => exact r.isShortest_zero []
    | succ count =>
      rw [shortest_succ_nil]
      exact ⟨List.prefix_rfl, rfl, fun _ _ _ => Nat.zero_le _, fun _ => rfl⟩
  | cons c text ih =>
    cases count with
    | zero =>
      rw [shortest_zero]
      exact r.isShortest_zero (c :: text)
    | succ count =>
      obtain ⟨within, hlength, least, whole⟩ :=
        ih (r.step c).2 (if (r.step c).1.isSome then count else count + 1)
      rw [shortest_succ_cons]
      generalize (r.step c).2.shortest _ text = front at *
      refine ⟨List.cons_prefix_cons.mpr ⟨rfl, within⟩, ?_, fun other hother hkept => ?_,
        fun h => ?_⟩
      · rw [kept_cons, kept_cons]
        cases hstep : (r.step c).1 <;> simp [hstep] at hlength ⊢ <;> omega
      · cases other with
        | nil => exact absurd hkept (Nat.not_succ_le_zero count)
        | cons d other =>
          obtain ⟨rfl, htext⟩ := List.cons_prefix_cons.mp hother
          refine Nat.succ_le_succ (least other htext ?_)
          rw [kept_cons] at hkept
          cases hstep : (r.step d).1 <;> simp [hstep] at hkept ⊢ <;> omega
      · refine congrArg (c :: ·) (whole ?_)
        rw [kept_cons] at h
        cases hstep : (r.step c).1 <;> simp [hstep] at h ⊢ <;> omega

/-! Iterators -/

/-- One more item is read from where those before it have ended. -/
theorem shortest_succ (r : Run) (count : Nat) (text : List Char) :
    r.shortest (count + 1) text = r.shortest count text ++
      (r.feed (r.shortest count text)).2.shortest 1 (text.drop (r.shortest count text).length) := by
  induction text generalizing r count with
  | nil => cases count <;> simp
  | cons c text ih =>
    cases count with
    | zero => simp [feed]
    | succ count =>
      rw [shortest_succ_cons, shortest_succ_cons, feed_cons, List.cons_append, List.length_cons,
        List.drop_succ_cons]
      cases (r.step c).1 with
      | none => exact congrArg (c :: ·) (ih (r.step c).2 (count + 1))
      | some d => exact congrArg (c :: ·) (ih (r.step c).2 count)

theorem readSites_drop_shortest (r : Run) (count : Nat) (places : List Site) :
    ((r.feed (r.shortest count (places.map Site.char))).2.readSites
      (places.drop (r.shortest count (places.map Site.char)).length)).1 =
        (r.readSites places).1.drop count := by
  induction places generalizing r count with
  | nil => cases count <;> simp [feed, readSites]
  | cons s places ih =>
    cases count with
    | zero => simp [feed]
    | succ count =>
      rw [List.map_cons, shortest_succ_cons, feed_cons, List.length_cons, List.drop_succ_cons,
        readSites.eq_2]
      rcases r.step s.char with ⟨_ | c, r'⟩
      · exact ih r' (count + 1)
      · exact ih r' count

theorem next_eq (r : Run) (places : List Site) :
    r.next places = ((r.readSites places).1.head?,
      (r.feed (r.shortest 1 (places.map Site.char))).2,
      places.drop (r.shortest 1 (places.map Site.char)).length) := by
  induction places generalizing r with
  | nil => simp [next, readSites, feed]
  | cons s places ih =>
    rw [next, readSites, List.map_cons, shortest_succ_cons, feed_cons, List.length_cons,
      List.drop_succ_cons]
    rcases r.step s.char with ⟨_ | c, r'⟩
    · exact ih r'
    · simp [feed]

end Run

/-- Makes calls in order, and gives the replies. -/
def Reader.callAll (r : Reader) : List Call → List Reply × Reader
  | [] => ([], r)
  | call :: rest =>
    let (reply, r) := r.call call
    let (replies, r) := r.callAll rest
    (reply :: replies, r)

/-! What is expected -/

/-- What a run has read since it was reset. -/
inductive Past
  /-- Characters, in whatever way they came. -/
  | fed (read : List Char)
  /-- As much of a text as an iterator needs for so many items. -/
  | asked (text : List Char) (items : Nat)

namespace Pipeline

/-- The characters that have been read. -/
def read (p : Pipeline) : Past → List Char
  | .fed read => read
  | .asked text items => p.start.shortest items text

/-- The reply to a call, and what has been read then. -/
def expected (p : Pipeline) (past : Past) : Reader.Call → Reader.Reply × Past
  | .transform c => (.char ((p.start.feed (p.read past)).2.step c).1, .fed (p.read past ++ [c]))
  | .reset => (.done, .fed [])
  | .apply text => (.text (p.apply text), .fed text)
  | .chars text => (.done, .asked text 0)
  | .next =>
    match past with
    | .fed read => (.item none, .fed read)
    | .asked text items => (.item (p.apply text)[items]?, .asked text (items + 1))

/-- The replies to calls in order, and what has been read then. -/
def expectedReplies (p : Pipeline) (past : Past) : List Reader.Call → List Reader.Reply × Past
  | [] => ([], past)
  | call :: rest =>
    let (reply, past) := p.expected past call
    let (replies, past) := p.expectedReplies past rest
    (reply :: replies, past)

/-- The run that has read just that since it was fresh, and what its iterator has not read. -/
def reader (p : Pipeline) (past : Past) : Reader where
  run := (p.start.feed (p.read past)).2
  unread :=
    match past with
    | .fed _ => []
    | .asked text items => (sites text).drop (p.start.shortest items text).length

/-- Whatever a run has read, a reset makes it a fresh one. -/
theorem reset_feed_start (p : Pipeline) (text : List Char) :
    (p.start.feed text).2.reset = p.start := by
  rw [Run.reset_feed, reset_start]

theorem kept_start (p : Pipeline) (text : List Char) : p.start.kept text = p.chars text := by
  rw [chars, apply_eq, (p.start.readSites_eq_feed (sites text)).1, map_char_sites]

/-- Every call is answered from what has been read. -/
theorem call_reader (p : Pipeline) (past : Past) (call : Reader.Call) :
    (p.reader past).call call = ((p.expected past call).1, p.reader (p.expected past call).2) := by
  cases call with
  | transform c =>
    simp only [expected, reader, Reader.call, read, Run.feed_append]
    rfl
  | reset =>
    simp only [expected, reader, Reader.call, reset_feed_start]
    rfl
  | apply text =>
    simp only [expected, reader, Reader.call, Run.apply, reset_feed_start, apply_eq, read,
      Run.readSites_eq_feed, map_char_sites]
  | chars text =>
    simp only [expected, reader, Reader.call, reset_feed_start, read, Run.shortest_zero]
    rfl
  | next =>
    cases past with
    | fed read => rfl
    | asked text items =>
      have hitem := p.start.readSites_drop_shortest items (sites text)
      rw [map_char_sites] at hitem
      simp only [expected, reader, read, Reader.call, Run.next_eq, List.map_drop, map_char_sites,
        hitem, List.head?_drop, apply_eq, p.start.shortest_succ items, Run.feed_append,
        List.length_append, List.drop_drop]

/-- One call after the other is. -/
theorem callAll_reader (p : Pipeline) (past : Past) (calls : List Reader.Call) :
    (p.reader past).callAll calls =
      ((p.expectedReplies past calls).1, p.reader (p.expectedReplies past calls).2) := by
  induction calls generalizing past with
  | nil => rfl
  | cons call calls ih => simp only [Reader.callAll, call_reader, ih, expectedReplies]

/-- An iterator gives one output after the other, and then nothing. -/
theorem expectedReplies_next (p : Pipeline) (text : List Char) (given items : Nat) :
    p.expectedReplies (.asked text given) (.replicate items .next) =
      ((List.range' given items).map fun i => .item (p.apply text)[i]?,
        .asked text (given + items)) := by
  induction items generalizing given with
  | zero => rfl
  | succ items ih =>
    simp only [List.replicate_succ, expectedReplies, expected, ih, List.range'_succ, List.map_cons,
      Nat.add_right_comm given 1, Nat.add_assoc]

theorem expectedReplies_chars (p : Pipeline) (past : Past) (text : List Char) (items : Nat) :
    p.expectedReplies past (.chars text :: .replicate items .next) =
      (.done :: (List.range items).map fun i => .item (p.apply text)[i]?, .asked text items) := by
  simp only [expectedReplies, expected, expectedReplies_next, List.range_eq_range', Nat.zero_add]

end Pipeline

/-! Interleaving -/

open Automaton (own own_cons_self own_cons_ne)

/-- A call to one run leaves the others as they are, so each gets on as if it were alone. -/
theorem Reader.session_alone {n : Nat} (readers : Vector Reader n)
    (calls : List (Fin n × Reader.Call)) (k : Fin n) :
    own k (session readers calls).1 = ((readers.get k).callAll (own k calls)).1 ∧
      (session readers calls).2.get k = ((readers.get k).callAll (own k calls)).2 := by
  induction calls generalizing readers with
  | nil => exact ⟨rfl, rfl⟩
  | cons entry calls ih =>
    obtain ⟨j, call⟩ := entry
    simp only [session]
    obtain ⟨hreplies, hlast⟩ := ih (readers.set j ((readers.get j).call call).2)
    by_cases hj : j = k
    · subst hj
      have hnext : (readers.set j ((readers.get j).call call).2).get j =
          ((readers.get j).call call).2 := Vector.getElem_set_self _
      rw [hnext] at hreplies hlast
      rw [own_cons_self, own_cons_self, callAll, hreplies]
      exact ⟨rfl, hlast⟩
    · have hsame : (readers.set j ((readers.get j).call call).2).get k = readers.get k :=
        Vector.getElem_set_ne _ _ fun heq => hj (Fin.ext heq)
      rw [hsame] at hreplies hlast
      rw [own_cons_ne _ _ hj, own_cons_ne _ _ hj]
      exact ⟨hreplies, hlast⟩

/-- However calls to runs of one pipeline are interleaved, and wherever their iterators stop, the
replies of each run are told by the calls made to it alone, and so is its state. After any history
it transforms a text as a fresh run does; after a reset it keeps, character by character, what is
kept of the whole text; and an iterator gives the first outputs for its text and leaves the run
where the shortest prefix that makes them leads to. -/
theorem Pipeline.history_exact (p : Pipeline) {n : Nat} (calls : List (Fin n × Reader.Call))
    (k : Fin n) :
    let after := Reader.session (.replicate n (.start p)) calls
    let r := after.2.get k
    own k after.1 = (p.expectedReplies (.fed []) (own k calls)).1 ∧
    r = p.reader (p.expectedReplies (.fed []) (own k calls)).2 ∧
    (∀ text, (r.run.apply text).1 = p.apply text) ∧
    r.run.reset = p.start ∧
    (∀ text, r.run.reset.kept text = p.chars text) ∧
    ∀ text items,
      let opened := r.callAll (.chars text :: .replicate items .next)
      opened.1 = .done :: (List.range items).map (fun i => .item (p.apply text)[i]?) ∧
      opened.2.run = (r.run.reset.feed (p.start.shortest items text)).2 ∧
      p.start.IsShortest items text (p.start.shortest items text) := by
  have hstart : (Vector.replicate n (Reader.start p)).get k = p.reader (.fed []) :=
    Vector.getElem_replicate _
  obtain ⟨hreplies, hlast⟩ := Reader.session_alone (.replicate n (.start p)) calls k
  rw [hstart, callAll_reader] at hreplies hlast
  simp only [hreplies, hlast]
  generalize (p.expectedReplies (.fed []) (own k calls)).2 = past
  have hreset : (p.reader past).run.reset = p.start := p.reset_feed_start _
  refine ⟨trivial, trivial, fun text => ?_, hreset, fun text => ?_, fun text items => ?_⟩
  · rw [Run.apply, hreset, apply_eq]
  · rw [hreset, kept_start]
  · rw [callAll_reader, hreset, expectedReplies_chars]
    exact ⟨rfl, rfl, p.start.isShortest_shortest items text⟩

end TermScan
