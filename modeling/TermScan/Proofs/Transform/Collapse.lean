import Mathlib.Data.List.SplitBy
import TermScan.Transform.Collapse

/-!
# Collapsing cuts runs

A collapse remembers one character and how often it was read in a row, and nothing of what it kept.
So what is kept of a text is told run by run: of each maximal run of equal characters the first ones
are kept, as many as the threshold admits. Neighbouring runs are still apart when each of them keeps
a character, so nothing is left to collapse. A copy shares no state with its original.
-/
namespace TermScan

namespace Thresholds

/-- How many of `n` equal characters in a row are kept. A threshold that no count exceeds keeps them
all. -/
def admitted (t : Thresholds) (c : Char) (n : Nat) : Nat :=
  if Collapse.largestCount ≤ t.limit c then n else min n (t.limit c)

/-- The first characters of a run of equal ones, as many as are kept of it. -/
def shorten (t : Thresholds) (run : List Char) : List Char :=
  run.take (run.head?.elim 0 fun c => t.admitted c run.length)

/-- What is kept of a text: its maximal runs of equal characters, each of them shortened. -/
def collapse (t : Thresholds) (text : List Char) : List Char :=
  (text.splitBy (· == ·)).flatMap t.shorten

variable (t : Thresholds) (c : Char) (n : Nat)

theorem admitted_zero : t.admitted c 0 = 0 := by
  unfold admitted
  split_ifs
  · rfl
  · exact Nat.zero_min _

/-- One character more is kept just where its place in the run, or the last one that is counted, is
within the threshold. -/
theorem admitted_succ : t.admitted c (n + 1) =
    t.admitted c n + if min (n + 1) Collapse.largestCount ≤ t.limit c then 1 else 0 := by
  unfold admitted
  split_ifs <;> omega

theorem admitted_of_le (h : n ≤ Collapse.largestCount) :
    t.admitted c n = min n (t.limit c) := by
  unfold admitted
  split_ifs <;> omega

theorem admitted_admitted : t.admitted c (t.admitted c n) = t.admitted c n := by
  unfold admitted
  split_ifs <;> omega

theorem admitted_pos (h : 1 ≤ t.limit c) : 0 < t.admitted c (n + 1) := by
  unfold admitted
  split_ifs <;> omega

theorem shorten_replicate : t.shorten (.replicate n c) = .replicate (t.admitted c n) c := by
  cases n with
  | zero => rw [admitted_zero]; rfl
  | succ n =>
    have hle : t.admitted c (n + 1) ≤ n + 1 := by
      unfold admitted
      split_ifs <;> omega
    show List.take (t.admitted c (List.replicate (n + 1) c).length) _ = _
    rw [List.length_replicate, List.take_replicate, Nat.min_eq_left hle]

end Thresholds

/-! Runs -/

/-- A text that is not empty begins with a run of its first character. -/
theorem exists_run (c : Char) (text : List Char) : ∃ n rest,
    c :: text = .replicate (n + 1) c ++ rest ∧ rest.head? ≠ some c := by
  induction text with
  | nil => exact ⟨0, [], rfl, nofun⟩
  | cons d text ih =>
    by_cases hd : d = c
    · obtain ⟨n, rest, htext, hrest⟩ := ih
      exact ⟨n + 1, rest, by rw [hd, htext]; rfl, hrest⟩
    · exact ⟨0, d :: text, rfl, fun h => hd (Option.some.inj h)⟩

/-- Induction on the maximal runs of a text. -/
theorem runs_induction {motive : List Char → Prop} (nil : motive [])
    (run : ∀ c n rest, rest.head? ≠ some c → motive rest →
      motive (.replicate (n + 1) c ++ rest))
    (text : List Char) : motive text := by
  induction hlength : text.length using Nat.strong_induction_on generalizing text with
  | _ length ih =>
    cases text with
    | nil => exact nil
    | cons c text =>
      obtain ⟨n, rest, htext, hrest⟩ := exists_run c text
      rw [htext] at hlength ⊢
      rw [List.length_append, List.length_replicate] at hlength
      exact run c n rest hrest (ih rest.length (by omega) rest rfl)

theorem splitBy_replicate_append {c : Char} {rest : List Char} (h : rest.head? ≠ some c) (n : Nat) :
    (.replicate (n + 1) c ++ rest).splitBy (· == ·) =
      .replicate (n + 1) c :: rest.splitBy (· == ·) := by
  have hchain : (List.replicate (n + 1) c).IsChain fun x y => (x == y) = true :=
    List.isChain_replicate_of_rel (n + 1) (beq_self_eq_true c)
  have hrun : (List.replicate (n + 1) c).splitBy (· == ·) = [.replicate (n + 1) c] :=
    List.splitBy_of_isChain (by simp) hchain
  have happart : ∀ x ∈ (List.replicate (n + 1) c).getLast?, ∀ y ∈ rest.head?,
      (x == y) = false := by
    intro x hx y hy
    obtain rfl : x = c := List.eq_of_mem_replicate (List.mem_of_mem_getLast? hx)
    have hne : x ≠ y := fun heq => h (heq ▸ hy)
    simpa using hne
  rw [List.splitBy_append happart, hrun]
  rfl

namespace Thresholds

theorem collapse_replicate_append (t : Thresholds) {c : Char} {rest : List Char}
    (h : rest.head? ≠ some c) (n : Nat) : t.collapse (.replicate (n + 1) c ++ rest) =
      .replicate (t.admitted c (n + 1)) c ++ t.collapse rest := by
  rw [collapse, splitBy_replicate_append h, List.flatMap_cons, shorten_replicate]
  rfl

/-- A text that is no longer than counts go has no run that is longer. -/
theorem collapse_of_length_le (t : Thresholds) {text : List Char}
    (h : text.length ≤ Collapse.largestCount) :
    t.collapse text = (text.splitBy (· == ·)).flatMap fun run =>
      run.take (min run.length (run.head?.elim 0 t.limit)) := by
  refine List.flatMap_congr fun run hrun => ?_
  have hpart : run.length ≤ text.length := by
    have hsub := (List.sublist_flatten_of_mem hrun).length_le
    rwa [List.flatten_splitBy] at hsub
  cases run with
  | nil => rfl
  | cons c run =>
    show List.take (t.admitted c (c :: run).length) (c :: run) = _
    rw [t.admitted_of_le c _ (hpart.trans h)]
    rfl

/-- Where no run is dropped, neighbouring runs stay apart, and shortened runs are not shortened
again. -/
theorem collapse_collapse (t : Thresholds) (text : List Char) (h : ∀ c ∈ text, 1 ≤ t.limit c) :
    t.collapse (t.collapse text) = t.collapse text ∧ (t.collapse text).head? = text.head? := by
  induction text using runs_induction with
  | nil => exact ⟨rfl, rfl⟩
  | run c n rest hrest ih =>
    obtain ⟨hstays, hhead⟩ := ih fun d hd => h d (List.mem_append_right _ hd)
    have hc : 1 ≤ t.limit c := h c (by simp)
    -- the run keeps a character, so what is kept of the next one still begins with another
    obtain ⟨m, hm⟩ : ∃ m, t.admitted c (n + 1) = m + 1 :=
      Nat.exists_eq_add_one.mpr (t.admitted_pos c n hc)
    have hagain : t.admitted c (m + 1) = m + 1 := by
      rw [← hm, admitted_admitted]
    rw [collapse_replicate_append t hrest, hm, collapse_replicate_append t (hhead ▸ hrest), hagain,
      hstays]
    exact ⟨rfl, rfl⟩

end Thresholds

namespace Collapse

variable {s : Collapse} {c : Char}

theorem feed_append (s : Collapse) (front back : List Char) :
    s.feed (front ++ back) =
      ((s.feed front).1 ++ ((s.feed front).2.feed back).1, ((s.feed front).2.feed back).2) := by
  induction front generalizing s with
  | nil => rfl
  | cons c front ih => simp only [List.cons_append, feed, ih, List.append_assoc]

/-- A collapse that has read a character so many times in a row. -/
def counted (t : Thresholds) (c : Char) (n : Nat) : Collapse := ⟨t, some c, min n largestCount⟩

theorem step_counted (t : Thresholds) (c : Char) (n : Nat) :
    (counted t c n).step c =
      (if min (n + 1) largestCount ≤ t.limit c then some c else none, counted t c (n + 1)) := by
  have hcount : min (min n largestCount + 1) largestCount = min (n + 1) largestCount := by omega
  simp [step, counted, hcount]

theorem replicate_admitted_succ (t : Thresholds) (c : Char) (n : Nat) :
    List.replicate (t.admitted c (n + 1)) c = .replicate (t.admitted c n) c ++
      (if min (n + 1) largestCount ≤ t.limit c then some c else none).toList := by
  rw [t.admitted_succ]
  split_ifs
  · exact List.replicate_succ'
  · exact (List.append_nil _).symm

/-- What is kept of the rest of a run makes up what is admitted of the whole run. -/
theorem feed_counted (t : Thresholds) (c : Char) (k n : Nat) :
    List.replicate (t.admitted c k) c ++ ((counted t c k).feed (.replicate n c)).1 =
        .replicate (t.admitted c (k + n)) c ∧
      ((counted t c k).feed (.replicate n c)).2 = counted t c (k + n) := by
  induction n generalizing k with
  | zero => exact ⟨List.append_nil _, rfl⟩
  | succ n ih =>
    obtain ⟨hkept, hstate⟩ := ih (k + 1)
    rw [replicate_admitted_succ, List.append_assoc] at hkept
    have hsum : k + (n + 1) = k + 1 + n := by omega
    rw [List.replicate_succ, feed, step_counted, hsum]
    exact ⟨hkept, hstate⟩

/-- A run that is no continuation of what was read is shortened. -/
theorem feed_run (h : s.last ≠ some c) (n : Nat) :
    s.feed (.replicate (n + 1) c) =
      (.replicate (s.thresholds.admitted c (n + 1)) c, counted s.thresholds c (n + 1)) := by
  have hstep : s.step c =
      (if min (0 + 1) largestCount ≤ s.thresholds.limit c then some c else none,
        counted s.thresholds c 1) := by
    simp [step, h, counted, largestCount]
  obtain ⟨hkept, hstate⟩ := feed_counted s.thresholds c 1 n
  rw [replicate_admitted_succ s.thresholds c 0, s.thresholds.admitted_zero] at hkept
  rw [List.replicate_succ, feed, hstep, Nat.add_comm n 1]
  exact Prod.ext hkept hstate

/-- A text that does not continue what was read is collapsed run by run. -/
theorem feed_eq (s : Collapse) (text : List Char) (h : ∀ c ∈ text.head?, s.last ≠ some c) :
    (s.feed text).1 = s.thresholds.collapse text := by
  induction text using runs_induction generalizing s with
  | nil => rfl
  | run c n rest hrest ih =>
    have hlast : s.last ≠ some c := h c rfl
    have hnext : ∀ d ∈ rest.head?, (counted s.thresholds c (n + 1)).last ≠ some d := by
      intro d hd heq
      have hcd : some c = some d := heq
      exact hrest (hcd ▸ hd)
    rw [feed_append, feed_run hlast, Thresholds.collapse_replicate_append _ hrest]
    exact congrArg _ (ih _ hnext)

theorem feed_start (t : Thresholds) (text : List Char) :
    ((start t).feed text).1 = t.collapse text :=
  feed_eq (start t) text fun _ _ => nofun

/-! Sessions -/

/-- Makes calls in order, and gives the replies. -/
def callAll (s : Collapse) : List Call → List Reply × Collapse
  | [] => ([], s)
  | call :: rest =>
    let (reply, s) := s.call call
    let (replies, s) := s.callAll rest
    (reply :: replies, s)

/-- The characters that replies hand on. -/
def kept (replies : List Reply) : List Char :=
  replies.flatMap fun
    | .char c => c.toList
    | _ => []

theorem callAll_transform (s : Collapse) (text : List Char) :
    kept (s.callAll (text.map .transform)).1 = (s.feed text).1 ∧
      (s.callAll (text.map .transform)).2 = (s.feed text).2 := by
  induction text generalizing s with
  | nil => exact ⟨rfl, rfl⟩
  | cons c text ih =>
    obtain ⟨hkept, hstate⟩ := ih (s.step c).2
    exact ⟨congrArg ((s.step c).1.toList ++ ·) hkept, hstate⟩

/-- The calls that are made to one collapse. -/
def Session.callsTo (k : Nat) : {n : Nat} → Session n → List Call
  | _, .done => []
  | _, .ask j call rest => if j.val = k then call :: rest.callsTo k else rest.callsTo k
  | _, .clone _ rest => rest.callsTo k

/-- The replies that one collapse gives. -/
def repliesOf (k : Nat) (replies : List (Nat × Reply)) : List Reply :=
  replies.filterMap fun entry => if entry.1 = k then some entry.2 else none

theorem repliesOf_cons (j k : Nat) (reply : Reply) (replies : List (Nat × Reply)) :
    repliesOf k ((j, reply) :: replies) =
      if j = k then reply :: repliesOf k replies else repliesOf k replies := by
  unfold repliesOf
  rw [List.filterMap_cons]
  split_ifs <;> rfl

/-- A call to one collapse, or a copy of it, leaves the others as they are, so each gets on as if it
were alone. -/
theorem Session.replies_alone {n : Nat} (session : Session n) (states : Vector Collapse n)
    (k : Fin n) :
    repliesOf k (session.replies states) = ((states.get k).callAll (session.callsTo k)).1 := by
  induction session with
  | done => rfl
  | ask j call rest ih =>
    rw [replies, repliesOf_cons, ih, callsTo]
    by_cases hj : j = k
    · subst hj
      have hnext : (states.set j ((states.get j).call call).2).get j =
          ((states.get j).call call).2 := Vector.getElem_set_self _
      rw [if_pos rfl, if_pos rfl, hnext]
      rfl
    · have hsame : (states.set j ((states.get j).call call).2).get k = states.get k :=
        Vector.getElem_set_ne _ _ fun heq => hj (Fin.ext heq)
      have hval : j.val ≠ k.val := fun heq => hj (Fin.ext heq)
      rw [if_neg hval, if_neg hval, hsame]
  | clone j rest ih =>
    have hsame : (states.push (states.get j)).get k.castSucc = states.get k :=
      Vector.getElem_push_lt k.isLt
    have hnew : ¬_ = k.val := k.isLt.ne'
    rw [replies, repliesOf_cons, if_neg hnew, callsTo]
    exact (ih _ k.castSucc).trans (by rw [hsame]; rfl)

/-- A collapse that is fresh or was reset keeps of a text the first characters of each maximal run,
as many as the threshold admits. A run that can be counted keeps no more than the threshold; a
longer one is cut in the same way unless the threshold is the largest there is. Where each threshold
is one at least, what is kept stays as it is when it is collapsed again. A copy goes on as its
original would for the calls that are made to it, the original for those that are made to the
original, and all others as if nothing had been copied. -/
theorem truncation_exact (s : Collapse) :
    s.reset = start s.thresholds ∧
    (∀ text, (s.reset.feed text).1 = s.thresholds.collapse text ∧
      kept (s.callAll (.reset :: text.map .transform)).1 = s.thresholds.collapse text) ∧
    (∀ text, text.length ≤ largestCount → s.thresholds.collapse text =
      (text.splitBy (· == ·)).flatMap fun run =>
        run.take (min run.length (run.head?.elim 0 s.thresholds.limit))) ∧
    (∀ text, (∀ c ∈ text, 1 ≤ s.thresholds.limit c) →
      (s.reset.feed (s.reset.feed text).1).1 = (s.reset.feed text).1) ∧
    ∀ (n : Nat) (states : Vector Collapse n) (k : Fin n) (rest : Session (n + 1)),
      states.get k = s →
      let replies := (Session.clone k rest).replies states
      repliesOf n replies = .cloned :: (s.callAll (rest.callsTo n)).1 ∧
      repliesOf k replies = (s.callAll (rest.callsTo k)).1 ∧
      ∀ j : Fin n, repliesOf j replies = ((states.get j).callAll (rest.callsTo j)).1 := by
  have hfeed (text : List Char) : (s.reset.feed text).1 = s.thresholds.collapse text :=
    feed_start s.thresholds text
  refine ⟨rfl, fun text => ⟨hfeed text, ?_⟩, fun text hlength => ?_, fun text hpos => ?_,
    fun n states k rest hk => ?_⟩
  · exact ((callAll_transform s.reset text).1).trans (hfeed text)
  · exact s.thresholds.collapse_of_length_le hlength
  · rw [hfeed, hfeed]
    exact (s.thresholds.collapse_collapse text hpos).1
  · have hothers (j : Fin n) : repliesOf j ((Session.clone k rest).replies states) =
        ((states.get j).callAll (rest.callsTo j)).1 :=
      (Session.clone k rest).replies_alone states j
    have hcopy := rest.replies_alone (states.push (states.get k)) (Fin.last n)
    have hlast : (states.push (states.get k)).get (Fin.last n) = s :=
      (Vector.getElem_push_eq).trans hk
    rw [hlast] at hcopy
    refine ⟨?_, by rw [hothers k, hk], hothers⟩
    rw [Session.replies, repliesOf_cons, if_pos rfl]
    exact congrArg (.cloned :: ·) hcopy

theorem truncation_exact_sample :
    let s : Collapse := ⟨⟨1, [('o', 2), ('-', 0)]⟩, some 'o', 2⟩
    let text := "booobb".toList
    let rest : Session 2 := .ask 0 (.transform 'o') (.ask 1 .reset (.ask 1 (.transform 'o') .done))
    text.length ≤ largestCount ∧ (s.reset.feed text).1 = "boob".toList ∧
      ((text.splitBy (· == ·)).flatMap fun run =>
        run.take (min run.length (run.head?.elim 0 s.thresholds.limit))) = "boob".toList ∧
      (∀ c ∈ text, 1 ≤ s.thresholds.limit c) ∧ (s.reset.feed "boob".toList).1 = "boob".toList ∧
      (Vector.replicate 1 s).get 0 = s ∧
      repliesOf 0 ((Session.clone 0 rest).replies (.replicate 1 s)) = [.char none] ∧
      repliesOf 1 ((Session.clone 0 rest).replies (.replicate 1 s)) =
        [.cloned, .done, .char (some 'o')] := by
  intro s text rest
  obtain ⟨-, hkept, hshort, hagain, hcopy⟩ := truncation_exact s
  have hlength : text.length ≤ largestCount := by decide
  have hall : text.all fun c => 1 ≤ s.thresholds.limit c := by decide
  have hpos : ∀ c ∈ text, 1 ≤ s.thresholds.limit c :=
    fun c hc => of_decide_eq_true (List.all_eq_true.mp hall c hc)
  have hfeed : (s.reset.feed text).1 = "boob".toList := by decide
  have hruns := (hshort text hlength).symm.trans ((hkept text).1.symm.trans hfeed)
  have hstays := hagain text hpos
  rw [hfeed] at hstays
  obtain ⟨hclone, horiginal, -⟩ := hcopy 1 (.replicate 1 s) 0 rest rfl
  exact ⟨hlength, hfeed, hruns, hpos, hstays, rfl, horiginal.trans (by decide),
    hclone.trans (by decide)⟩

end Collapse

end TermScan
