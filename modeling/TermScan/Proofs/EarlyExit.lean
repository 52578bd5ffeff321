import Mathlib.Data.Finset.Lattice.Fold
import TermScan.Proofs.Automaton.Limit
import TermScan.Proofs.Automaton.Order
import TermScan.Proofs.Regex.Scan
import TermScan.Proofs.Sorting

/-!
# Stopping early

A scan for the first match ends at it, and a scan for all matches goes on, to its end or to a
failure. Both read the same results: the cursor of an automaton hands out one list, of which the
head or everything is asked for, and the search for a term passes over the same candidates, of which
a whitelisted one is dropped and never ends it.
-/
namespace TermScan

/-! Results in order -/

/-- The first of some results. -/
def firstResult : List (Except Error Match) → Except Error (Option Match)
  | [] => .ok none
  | .ok m :: _ => .ok (some m)
  | .error e :: _ => .error e

/-- All of some results, unless a failure is among them. -/
def allResults : List (Except Error Match) → Except Error (List Match)
  | [] => .ok []
  | .ok m :: rest => (allResults rest).map (m :: ·)
  | .error e :: _ => .error e

theorem allResults_results (found : List Match) (failure : Option Error) :
    allResults (results (found, failure)) = failure.elim (.ok found) .error := by
  induction found with
  | nil => cases failure <;> rfl
  | cons m found ih =>
    show (allResults (results (found, failure))).map (m :: ·) = _
    rw [ih]
    cases failure <;> rfl

theorem firstResult_results (found : List Match) (failure : Option Error) :
    firstResult (results (found, failure)) =
      match found.head? with
      | some m => .ok (some m)
      | none => failure.elim (.ok none) .error := by
  cases found with
  | nil => cases failure <;> rfl
  | cons m found => rfl

/-- What stopping early gives is told from what is found without it. -/
structure StopsEarly (all : Bool → Except Error (List Match)) (first : Except Error (Option Match))
    (any : Except Error Bool) : Prop where
  first_eq : ∀ found, all false = .ok found → first = .ok found.head?
  any_eq : ∀ found, all false = .ok found → any = .ok (!found.isEmpty)
  sorted_eq : ∀ found, all false = .ok found → ∃ sorted, all true = .ok sorted ∧
    sorted.Perm found ∧ sorted.Pairwise fun m m' => (m.comparePositions m').isLE

theorem isSome_head?_eq (found : List Match) : found.head?.isSome = !found.isEmpty := by
  cases found <;> rfl

/-- All matches may be sorted after they were found, and whether there is one is read off the
first. -/
theorem StopsEarly.of_first {scanned : Except Error (List Match)}
    {first : Except Error (Option Match)}
    (h : ∀ found, scanned = .ok found → first = .ok found.head?) :
    StopsEarly (fun sorted => scanned.map fun found => if sorted then Match.sort found else found)
      first (first.map Option.isSome) := by
  have hscanned {found : List Match}
      (hfound : scanned.map (fun found => if false then Match.sort found else found) = .ok found) :
      scanned = .ok found := by
    cases scanned with
    | error e => cases hfound
    | ok found' => exact hfound
  refine ⟨fun found hfound => h found (hscanned hfound), fun found hfound => ?_,
    fun found hfound => ?_⟩
  · rw [h found (hscanned hfound)]
    exact congrArg Except.ok (isSome_head?_eq found)
  · rw [hscanned hfound]
    exact ⟨Match.sort found, rfl, Match.sort_perm found, Match.pairwise_sort found⟩

/-- No span that is whitelisted in a text contains a match. -/
def Whitelist.Accepts (w : Whitelist) (text : List Char) (m : Match) : Prop :=
  ∀ span ∈ (w.scan text).toList, ¬span.contains ⟨m.first, m.last⟩

instance (w : Whitelist) (text : List Char) (m : Match) : Decidable (w.Accepts text m) :=
  inferInstanceAs (Decidable (∀ span ∈ (w.scan text).toList, ¬span.contains ⟨m.first, m.last⟩))

/-! The automaton -/

/-- Asking a cursor for one match after the other collects what remains. -/
theorem Cursor.drain_eq {a : Automaton} (c : Cursor) : c.drain a = allResults (c.remaining a) := by
  fun_induction Cursor.drain c a with
  | case1 c c' hnext =>
    have hhead := (c.next_spec (a := a)).1
    rw [hnext] at hhead
    rw [List.head?_eq_none_iff.mp hhead.symm]
    rfl
  | case2 c e c' hnext =>
    have hhead := (c.next_spec (a := a)).1
    rw [hnext] at hhead
    obtain ⟨rest, hrest⟩ := List.head?_eq_some_iff.mp hhead.symm
    rw [hrest]
    rfl
  | case3 c m c' hnext ih =>
    obtain ⟨hhead, htail⟩ := c.next_spec (a := a)
    rw [hnext] at hhead htail
    obtain ⟨rest, hrest⟩ := List.head?_eq_some_iff.mp hhead.symm
    rw [hrest, List.tail_cons] at htail
    rw [ih, hrest, htail]
    rfl

namespace Automaton

variable {o : Options} {a : Automaton}

theorem drain_cursor (a : Automaton) (input : String) :
    (a.cursor input).drain a = a.allMatches input := by
  rw [Cursor.drain_eq, Cursor.remaining_cursor, allMatches]
  obtain ⟨found, failure⟩ := a.scan input
  rw [allResults_results]
  cases failure <;> rfl

/-- What a cursor hands out is what a scan finds. -/
theorem collect_eq (a : Automaton) (input : String) :
    a.collect input false = a.allMatches input ∧ a.collect input true = a.sortedMatches input := by
  unfold collect sortedMatches
  rw [drain_cursor]
  refine ⟨?_, rfl⟩
  cases a.allMatches input <;> rfl

theorem firstMatch_eq (a : Automaton) (input : String) :
    a.firstMatch input = firstResult (results (a.scan input)) := by
  rw [← Cursor.remaining_cursor, firstMatch, (a.cursor input).next_spec.1]
  cases (a.cursor input).remaining a with
  | nil => rfl
  | cons r rest => cases r <;> rfl

theorem stopsEarly (a : Automaton) (input : String) :
    StopsEarly (a.collect input) (a.firstMatch input) (a.hasMatch input) := by
  refine StopsEarly.of_first fun found hfound => ?_
  rw [drain_cursor, allMatches] at hfound
  rw [firstMatch_eq]
  generalize a.scan input = scanned at hfound ⊢
  obtain ⟨found', failure⟩ := scanned
  cases failure with
  | some e => cases hfound
  | none =>
    obtain rfl : found' = found := Except.ok.inj hfound
    rw [firstResult_results]
    cases found' <;> rfl

/-- With a limit high enough a scan succeeds. -/
theorem exists_limit (sound : a.Sound) (input : String) :
    ∃ higher found, ({ a with limit := higher } : Automaton).allMatches input = .ok found := by
  have sound' (limit : Nat) : ({ a with limit } : Automaton).Sound :=
    ⟨sound.1, sound.2, sound.3, sound.4⟩
  refine ⟨(Finset.range (a.pipeline.apply input.toList).length).sup
    (a.loadAt (a.pipeline.apply input.toList)), _,
    (allMatches_eq_ok_iff (sound' _)).mpr ⟨fun k hk => ?_, rfl⟩⟩
  exact Finset.le_sup (f := a.loadAt (a.pipeline.apply input.toList)) (Finset.mem_range.mpr hk)

/-- Where a scan exceeds the limit, the first match is the first of those that end before; and where
there is none, asking for it fails as the scan does. -/
theorem firstMatch_of_load (built : build o = .ok a) (wide : ∀ t ∈ o.terms, t.NeverEmpty)
    (input : String) {k : Nat} (hk : k < (a.pipeline.apply input.toList).length)
    (hexceeds : o.limit.getD defaultLimit <
      Term.load o.terms input.toList (a.pipeline.apply input.toList) k)
    (hbefore : ∀ j < k, Term.load o.terms input.toList (a.pipeline.apply input.toList) j ≤
      o.limit.getD defaultLimit) :
    let failure := Error.walkLimit input (a.pipeline.apply input.toList)[k].site.span.first
      (Term.patternCount o.terms) (o.limit.getD defaultLimit)
    let Completed (m : Match) : Prop :=
      Term.OccursBefore o.terms input.toList (a.pipeline.apply input.toList) k m ∧
        a.whitelist.Accepts input.toList m
    (a.firstMatch input = .error failure ∧ ¬∃ m, Completed m) ∨
      ∃ m, a.firstMatch input = .ok (some m) ∧ Completed m ∧
        (∀ m', Completed m' → m.last ≤ m'.last) ∧
        ∀ higher found, ({ a with limit := higher } : Automaton).allMatches input = .ok found →
          found.head? = some m := by
  intro failure Completed
  have hfirst := a.firstMatch_eq input
  rw [scan_of_load built input hk hexceeds hbefore, firstResult_results] at hfirst
  have hcompleted (m : Match) : m ∈ (List.range k).flatMap (a.foundAt _ _) ↔ Completed m :=
    mem_found_iff built wide hk.le
  have hordered : ((List.range k).flatMap (a.foundAt (a.pipeline.apply input.toList)
      (a.whitelist.scan input.toList))).Pairwise fun m m' => m.last ≤ m'.last :=
    (a.pairwise_found _ _ _).sublist ((isPrefix_range hk.le).flatMap _).sublist
  have hhigher (higher : Nat) (found : List Match)
      (h : ({ a with limit := higher } : Automaton).allMatches input = .ok found) :
      (List.range k).flatMap (a.foundAt _ _) <+: found :=
    prefix_of_limit (builtFrom built).sound hk.le h
  cases hdelivered : (List.range k).flatMap (a.foundAt (a.pipeline.apply input.toList)
      (a.whitelist.scan input.toList)) with
  | nil =>
    rw [hdelivered] at hfirst hcompleted
    exact .inl ⟨hfirst, fun ⟨m, hm⟩ => List.not_mem_nil ((hcompleted m).mpr hm)⟩
  | cons m delivered =>
    rw [hdelivered] at hfirst hcompleted hordered hhigher
    refine .inr ⟨m, hfirst, (hcompleted m).mp List.mem_cons_self, fun m' hm' => ?_,
      fun higher found h => ?_⟩
    · rcases List.mem_cons.mp ((hcompleted m').mpr hm') with heq | hlater
      · rw [heq]
      · exact List.rel_of_pairwise_cons hordered hlater
    · obtain ⟨rest, hrest⟩ := hhigher higher found h
      rw [← hrest]
      rfl

/-- A scan that fails has met the first index where the load exceeds the limit. -/
theorem exists_first_exceeding (built : build o = .ok a) {input : String} {e : Error}
    (hfails : a.allMatches input = .error e) :
    ∃ k < (a.pipeline.apply input.toList).length,
      o.limit.getD defaultLimit <
        Term.load o.terms input.toList (a.pipeline.apply input.toList) k ∧
      ∀ j < k, Term.load o.terms input.toList (a.pipeline.apply input.toList) j ≤
        o.limit.getD defaultLimit := by
  classical
  have hexists := (exists_error_iff built input).mp ⟨e, hfails⟩
  obtain ⟨hk, hexceeds⟩ := Nat.find_spec hexists
  refine ⟨Nat.find hexists, hk, hexceeds, fun j hj => ?_⟩
  exact Nat.not_lt.mp fun hlt => Nat.find_min hexists hj ⟨hj.trans hk, hlt⟩

/-- A scan that fails has exceeded the limit. Then the first match is the first of those that end
before the character where it did, and asking for it fails just where there is none. -/
theorem firstMatch_of_error (built : build o = .ok a) (wide : ∀ t ∈ o.terms, t.NeverEmpty)
    {input : String} {e : Error} (hfails : a.allMatches input = .error e) :
    let text := input.toList
    let kept := a.pipeline.apply text
    let limit := o.limit.getD defaultLimit
    ∃ k, ∃ hk : k < kept.length,
      (limit < Term.load o.terms text kept k ∧ ∀ j < k, Term.load o.terms text kept j ≤ limit) ∧
      e = .walkLimit input kept[k].site.span.first (Term.patternCount o.terms) limit ∧
      let Completed (m : Match) : Prop :=
        Term.OccursBefore o.terms text kept k m ∧ a.whitelist.Accepts text m
      (a.firstMatch input = .error e ↔ ¬∃ m, Completed m) ∧
      (a.hasMatch input = .error e ↔ ¬∃ m, Completed m) ∧
      ((∃ m, Completed m) → ∃ m, a.firstMatch input = .ok (some m) ∧ a.hasMatch input = .ok true ∧
        Completed m ∧ (∀ m', Completed m' → m.last ≤ m'.last) ∧
        (∃ higher found, ({ a with limit := higher } : Automaton).allMatches input = .ok found) ∧
        ∀ higher found, ({ a with limit := higher } : Automaton).allMatches input = .ok found →
          found.head? = some m) := by
  intro text kept limit
  obtain ⟨k, hk, hexceeds, hbefore⟩ := exists_first_exceeding built hfails
  have herror : a.allMatches input =
      .error (.walkLimit input kept[k].site.span.first (Term.patternCount o.terms) limit) := by
    rw [allMatches, scan_of_load built input hk hexceeds hbefore]
  obtain rfl := Except.error.inj (hfails.symm.trans herror)
  refine ⟨k, hk, ⟨hexceeds, hbefore⟩, rfl, ?_⟩
  intro Completed
  unfold hasMatch
  rcases firstMatch_of_load built wide input hk hexceeds hbefore with
    ⟨hfirst, hnone⟩ | ⟨m, hfirst, hm, hleast, hhigher⟩
  · rw [hfirst]
    exact ⟨iff_of_true rfl hnone, iff_of_true rfl hnone, fun h => absurd h hnone⟩
  · have hsome : ¬¬∃ m, Completed m := not_not_intro ⟨m, hm⟩
    rw [hfirst]
    refine ⟨iff_of_false (by simp) hsome, iff_of_false (by simp [Except.map]) hsome, fun _ => ?_⟩
    exact ⟨m, rfl, rfl, hm, hleast, exists_limit (builtFrom built).sound input, hhigher⟩

end Automaton

/-! Term by term -/

theorem Whitelist.allows_scan (w : Whitelist) (text : List Char) :
    (w.scan text).allows = fun m => decide (w.Accepts text m) := by
  ext m
  rw [IntervalSet.allows, Bool.eq_iff_iff, Bool.not_eq_true', ← Bool.not_eq_true,
    not_anyContains_scan_iff, decide_eq_true_eq]
  rfl

namespace RegexMatcher

theorem stopsEarly (r : RegexMatcher) (engines : FallibleEngines) (input : String) :
    StopsEarly (r.collect engines input) (r.findFirst engines input) (r.findAny engines input) := by
  refine StopsEarly.of_first fun found hfound => ?_
  obtain ⟨hnone, rfl⟩ := scanTerms_eq_ok_iff.mp hfound
  rw [List.nil_append, List.head?_filter]
  exact scanToFirst_eq hnone _

/-- With nothing whitelisted every candidate is found; the whitelist removes some of them, and the
first that it leaves is the first match. -/
theorem collect_of_candidates (r : RegexMatcher) {engines : FallibleEngines} {input : String}
    {candidates : List Match}
    (hall : scanTerms engines ⟨r.pipeline.apply input.toList, .empty⟩ r.terms [] = .ok candidates) :
    r.collect engines input false =
        .ok (candidates.filter (r.whitelist.Accepts input.toList)) ∧
      r.findFirst engines input =
        .ok (candidates.find? (r.whitelist.Accepts input.toList)) := by
  obtain ⟨hnone, rfl⟩ := scanTerms_eq_ok_iff.mp hall
  have hblind : ∀ passed : List Match, passed.filter IntervalSet.empty.allows = passed :=
    fun passed => List.filter_eq_self.mpr fun m _ => rfl
  rw [List.nil_append, hblind, ← r.whitelist.allows_scan]
  have hfound : scanTerms engines (r.haystack input) r.terms [] = .ok _ :=
    scanTerms_eq_ok_iff.mpr ⟨hnone, rfl⟩
  refine ⟨?_, scanToFirst_eq hnone _⟩
  rw [collect, hfound]
  rfl

/-! Engines that give nothing up -/

theorem collect_fallible (r : RegexMatcher) (engines : Engines) (input : String) :
    r.collect engines.fallible input false = .ok (r.searchMatches engines input) ∧
      r.collect engines.fallible input true = .ok (r.sortedSearchMatches engines input) := by
  unfold collect
  rw [scanTerms_fallible]
  exact ⟨rfl, rfl⟩

theorem firstMatch_eq_head? (r : RegexMatcher) (input : String) :
    r.firstMatch input = (r.allMatches input).head? := by
  unfold firstMatch allMatches
  rw [List.head?_flatMap]

section Leftmost

variable (r : RegexMatcher) {engines : Engines} (wide : ∀ t ∈ r.terms, t.NeverEmpty)
  (leftmost : ∀ t ∈ r.terms, (engines.compile t.pattern).FindsLeftmost t.pattern) (input : String)

include wide leftmost

/-- With leftmost searches that are never given up the loops find what trying each term at each
character finds. -/
theorem loops_of_leftmost :
    r.collect engines.fallible input false = .ok (r.allMatches input) ∧
      r.collect engines.fallible input true = .ok (r.sortedMatches input) ∧
      r.findFirst engines.fallible input = .ok (r.firstMatch input) ∧
      r.findAny engines.fallible input = .ok (r.hasMatch input) := by
  have hsame := r.searchMatches_eq leftmost (fun t ht => Pattern.matchesSome (wide t ht)) input
  obtain ⟨hall, hsorted⟩ := r.collect_fallible engines input
  rw [sortedSearchMatches, hsame] at hsorted
  rw [hsame] at hall
  have hfirst := (r.stopsEarly engines.fallible input).first_eq _ hall
  rw [← r.firstMatch_eq_head?] at hfirst
  refine ⟨hall, hsorted, hfirst, ?_⟩
  rw [findAny, hfirst]
  rfl

/-- What is considered for a term at an index is found unless it is suppressed, and then the first
match is not missing. -/
theorem mem_allMatches_of_candidate {t : Term} (ht : t ∈ r.terms) {i : Nat}
    (hi : i < (r.pipeline.apply input.toList).length) {m : Match}
    (hcandidate : candidate? t (r.pipeline.apply input.toList) i = some m)
    (haccepted : r.whitelist.Accepts input.toList m) :
    m ∈ r.allMatches input ∧ ∃ m', r.firstMatch input = some m' := by
  have hmem : m ∈ r.allMatches input := by
    rw [← r.searchMatches_eq leftmost fun t ht => Pattern.matchesSome (wide t ht),
      searchMatches_eq_filter, List.mem_filter]
    refine ⟨List.mem_flatMap.mpr ⟨t, ht, ?_⟩, ?_⟩
    · rw [considered_eq (leftmost t ht) (wide t ht)]
      exact List.mem_filterMap.mpr ⟨i, List.mem_range.mpr hi, hcandidate⟩
    · have hnot := (r.whitelist.not_anyContains_scan_iff input.toList _).mpr haccepted
      simpa using hnot
  refine ⟨hmem, ?_⟩
  rw [r.firstMatch_eq_head?]
  exact ⟨_, List.head?_eq_some_head (List.ne_nil_of_mem hmem)⟩

end Leftmost

end RegexMatcher

/-- For both matchers the first match is the first of all matches, there is a match just where there
are any, and sorting changes nothing but the order. Where the automaton exceeds its limit, asking
for the first match fails in the same way just if nothing that is accepted ends before; otherwise it
gives the first match of a scan with a limit high enough. The searches of the regular expressions
pass over the same candidates whatever is whitelisted: those that are accepted are found, and the
first of them in the order of the terms is the first match. Engines that do what the expressions say
and give nothing up consider a candidate wherever a term has one. -/
theorem early_exit_exact {o : Options} {a : Automaton} {r : RegexMatcher}
    (builtAutomaton : Automaton.build o = .ok a) (builtRegex : RegexMatcher.build o = .ok r)
    (wide : ∀ t ∈ o.terms, t.NeverEmpty) (input : String) :
    let text := input.toList
    let kept := o.blacklistPipeline.apply text
    let limit := o.limit.getD Automaton.defaultLimit
    StopsEarly (a.collect input) (a.firstMatch input) (a.hasMatch input) ∧
    (∀ e, a.collect input false = .error e → ∃ k, ∃ hk : k < kept.length,
      (limit < Term.load o.terms text kept k ∧ ∀ j < k, Term.load o.terms text kept j ≤ limit) ∧
      e = .walkLimit input kept[k].site.span.first (Term.patternCount o.terms) limit ∧
      let Completed (m : Match) : Prop :=
        Term.OccursBefore o.terms text kept k m ∧ a.whitelist.Accepts text m
      (a.firstMatch input = .error e ↔ ¬∃ m, Completed m) ∧
      (a.hasMatch input = .error e ↔ ¬∃ m, Completed m) ∧
      ((∃ m, Completed m) → ∃ m, a.firstMatch input = .ok (some m) ∧ a.hasMatch input = .ok true ∧
        Completed m ∧ (∀ m', Completed m' → m.last ≤ m'.last) ∧
        (∃ higher found, ({ a with limit := higher } : Automaton).collect input false = .ok found) ∧
        ∀ higher found, ({ a with limit := higher } : Automaton).collect input false = .ok found →
          found.head? = some m)) ∧
    (∀ engines : FallibleEngines,
      StopsEarly (r.collect engines input) (r.findFirst engines input) (r.findAny engines input) ∧
      ∀ candidates,
        RegexMatcher.scanTerms engines ⟨kept, .empty⟩ o.terms [] = .ok candidates →
        r.collect engines input false = .ok (candidates.filter (r.whitelist.Accepts text)) ∧
        r.findFirst engines input = .ok (candidates.find? (r.whitelist.Accepts text))) ∧
    ∀ engines : Engines,
      (∀ t ∈ o.terms, engines.Follow t.pattern) →
      r.collect engines.fallible input false = .ok (r.allMatches input) ∧
      r.collect engines.fallible input true = .ok (r.sortedMatches input) ∧
      r.findFirst engines.fallible input = .ok (r.firstMatch input) ∧
      r.findAny engines.fallible input = .ok (r.hasMatch input) ∧
      ∀ t ∈ o.terms, ∀ i < kept.length, ∀ m, RegexMatcher.candidate? t kept i = some m →
        r.whitelist.Accepts text m →
        m ∈ r.allMatches input ∧ ∃ m', r.firstMatch input = some m' := by
  have facts := RegexMatcher.builtFrom builtRegex
  have hpipeline : r.pipeline = a.pipeline :=
    facts.pipeline_eq.trans (Automaton.builtFrom builtAutomaton).pipeline_eq.symm
  rw [← (Automaton.builtFrom builtAutomaton).pipeline_eq, ← facts.terms_eq]
  rw [← facts.terms_eq] at wide
  intro text kept limit
  refine ⟨a.stopsEarly input, fun e he => ?_, fun engines =>
    ⟨r.stopsEarly engines input, fun candidates hall => ?_⟩, fun engines follow => ?_⟩
  · rw [(a.collect_eq input).1] at he
    simp only [fun higher => (({ a with limit := higher } : Automaton).collect_eq input).1,
      facts.terms_eq]
    exact Automaton.firstMatch_of_error builtAutomaton (facts.terms_eq ▸ wide) he
  · refine r.collect_of_candidates ?_
    rw [hpipeline]
    exact hall
  · have leftmost := fun t ht => Engines.follow_iff.mp (follow t ht)
    obtain ⟨hall, hsorted, hfirst, hany⟩ := r.loops_of_leftmost wide leftmost input
    refine ⟨hall, hsorted, hfirst, hany, fun t ht i hi m hcandidate haccepted => ?_⟩
    refine r.mem_allMatches_of_candidate wide leftmost input ht (i := i) ?_ ?_ haccepted
    · rw [hpipeline]
      exact hi
    · rw [hpipeline]
      exact hcandidate

/-- The automaton of the sample fails behind the lead of a fork, after a match that is accepted and
before another one that the regular expressions find. -/
theorem early_exit_exact_sample :
    let o := Automaton.sampleOptions (some 0)
    let a := Automaton.sampleAutomaton (some 0)
    let r : RegexMatcher := ⟨o.terms, .ofWords [['x', 'b']] .identity, o.blacklistPipeline⟩
    let input := "xb b-ab a"
    let engines := (Engines.ofTerms o.terms).fallible
    Automaton.build o = .ok a ∧ RegexMatcher.build o = .ok r ∧ (∀ t ∈ o.terms, t.NeverEmpty) ∧
      a.collect input false = .error (.walkLimit input 6 3 0) ∧
      a.firstMatch input = .ok (some ⟨9, 1, 3, 3⟩) ∧ a.hasMatch input = .ok true ∧
      (∃ higher found, ({ a with limit := higher } : Automaton).collect input false = .ok found ∧
        found.head? = some ⟨9, 1, 3, 3⟩) ∧
      StopsEarly (r.collect engines input) (r.findFirst engines input) (r.findAny engines input) ∧
      r.collect engines input false = .ok (r.allMatches input) ∧
      r.findFirst engines input = .ok (r.firstMatch input) := by
  intro o a r input engines
  have wide := Automaton.neverEmpty_sampleOptions (some 0)
  have follow : ∀ t ∈ o.terms, (Engines.ofTerms o.terms).Follow t.pattern :=
    Engines.follow_ofTerms (by decide)
  have herror : a.collect input false = .error (.walkLimit input 6 3 0) := by
    rw [(a.collect_eq input).1]
    decide +kernel
  have hfirst : a.firstMatch input = .ok (some ⟨9, 1, 3, 3⟩) := by decide +kernel
  obtain ⟨-, hfails, hengines, hloops⟩ :=
    early_exit_exact (Automaton.build_sampleOptions (some 0)) (rfl : RegexMatcher.build o = .ok r)
      wide input
  obtain ⟨k, hk, -, -, hiff, -, hsome⟩ := hfails _ herror
  rw [hfirst] at hiff
  obtain ⟨m, hm, hany, -, -, ⟨higher, found, hfound⟩, hhead⟩ :=
    hsome (Classical.not_not.mp fun hnone => nomatch hiff.mpr hnone)
  obtain rfl := Option.some.inj (Except.ok.inj (hfirst.symm.trans hm))
  obtain ⟨hall, -, hregex, -, -⟩ := hloops (Engines.ofTerms o.terms) follow
  exact ⟨Automaton.build_sampleOptions (some 0), rfl, wide, herror, hfirst, hany,
    ⟨higher, found, hfound, hhead higher found hfound⟩, (hengines engines).1, hall, hregex⟩

end TermScan
