import TermScan.Proofs.Pattern.Choices
import TermScan.Proofs.Regex.Agreement

/-!
# The matchers and optionals

Where a term with optionals occurs in several ways from one character on, the automaton reports
each of them, and a regular expression considers the preferred one alone. So the matches that the
regular expressions find are among those of the automaton, and as long as nothing is whitelisted
both find matches of the same terms from the same characters on.
-/
namespace TermScan

namespace Pattern

/-- With a choice of its optionals a pattern matches from an index of a text on. -/
structure MatchesWith (p : Pattern) (choices : List Bool) (text : List Char) (i : Nat) : Prop where
  length_eq : choices.length = p.optionalCount
  opens : p.startBoundary → ¬(text.take i).getLast?.any isWordChar
  heads : (choose p.nodes choices).Heads (text.drop i)
  closes : p.endBoundary →
    ¬(text.drop (i + (choose p.nodes choices).width)).head?.any isWordChar

theorem matchesWith_iff_chooses {p : Pattern} {choices : List Bool} {text : List Char} {i : Nat} :
    p.MatchesWith choices text i ↔
      ¬(p.startBoundary && (text.take i).getLast?.any isWordChar) ∧
        Chooses (fun rest => !(p.endBoundary && rest.head?.any isWordChar)) p.nodes (text.drop i)
          choices := by
  rw [Bool.and_eq_true, not_and]
  constructor
  · intro h
    refine ⟨h.opens, h.length_eq, h.heads, ?_⟩
    have hcloses := h.closes
    rw [List.drop_drop]
    cases hend : p.endBoundary <;> simp_all
  · intro ⟨hstart, h⟩
    refine ⟨h.length_eq, hstart, h.heads, fun hend => ?_⟩
    have haccepts := h.accepts
    rw [List.drop_drop] at haccepts
    simpa [hend] using haccepts

/-- A pattern matches with the greatest choice that it can match with. -/
theorem lengthAt?_eq_some_iff_isGreatest {p : Pattern} {text : List Char} {i n : Nat} :
    p.lengthAt? text i = some n ↔
      ∃ choices, IsGreatest {c | p.MatchesWith c text i} choices ∧
        (choose p.nodes choices).width = n := by
  unfold lengthAt? matchLength?
  simp only [matchesWith_iff_chooses]
  split_ifs with hstart
  · simp [IsGreatest, hstart]
  · rw [matchNodes?_eq_preferredLength?, preferredLength?_eq_some_iff]
    simp only [hstart, Bool.false_eq_true, not_false_eq_true, true_and]

theorem exists_isGreatest {p : Pattern} {choices : List Bool} {text : List Char} {i : Nat}
    (h : p.MatchesWith choices text i) : ∃ c, IsGreatest {c | p.MatchesWith c text i} c := by
  obtain ⟨hstart, hchooses⟩ := matchesWith_iff_chooses.mp h
  obtain ⟨n, hn⟩ := Option.isSome_iff_exists.mp (preferredLength?_isSome hchooses.reaches)
  obtain ⟨c, hgreatest, -⟩ := preferredLength?_eq_some_iff.mp hn
  refine ⟨c, ?_⟩
  simpa only [matchesWith_iff_chooses, hstart, Bool.false_eq_true, not_false_eq_true, true_and]
    using hgreatest

end Pattern

namespace Term

/-- With a choice of its optionals a term occurs from an index on where a match says. -/
def OccursWith (t : Term) (choices : List Bool) (text : List Char) (kept : List Mapped) (i : Nat)
    (m : Match) : Prop :=
  choices.length = t.pattern.optionalCount ∧
    ∃ j, t.OccursAt (choose t.pattern.nodes choices) text kept i j m

/-- Of the choices with which a term occurs from an index on this is the greatest one, compared from
the left and with presence above absence. -/
structure Prefers (t : Term) (choices : List Bool) (text : List Char) (kept : List Mapped) (i : Nat)
    (m : Match) : Prop where
  occurs : t.OccursWith choices text kept i m
  greatest : ∀ choices' m', t.OccursWith choices' text kept i m' → choices' ≤ choices

section Choices

variable {t : Term} {p : Pipeline} {text : List Char} {choices : List Bool} {i : Nat} {m : Match}

theorem occursWith_iff (wide : t.NeverEmpty) (sees : t.SeesBoundaries (p.apply text)) :
    t.OccursWith choices text (p.apply text) i m ↔
      t.pattern.MatchesWith choices ((p.apply text).map Mapped.char) i ∧
        RegexMatcher.match? .empty t.id ((p.apply text).drop i)
          (choose t.pattern.nodes choices).width = some m := by
  constructor
  · intro ⟨hlength, hoccurs⟩
    have he := mem_expand_iff.mpr ⟨choices, hlength, rfl⟩
    obtain ⟨hstart, hheads, hend, hmatch⟩ := (exists_occursAt_iff he (wide _ he) sees).mp hoccurs
    exact ⟨⟨hlength, hstart, hheads, hend⟩, hmatch⟩
  · intro ⟨h, hmatch⟩
    have he := mem_expand_iff.mpr ⟨choices, h.length_eq, rfl⟩
    exact ⟨h.length_eq, (exists_occursAt_iff he (wide _ he) sees).mpr
      ⟨h.opens, h.heads, h.closes, hmatch⟩⟩

theorem matchesWith_iff (wide : t.NeverEmpty) (sees : t.SeesBoundaries (p.apply text)) :
    t.pattern.MatchesWith choices ((p.apply text).map Mapped.char) i ↔
      ∃ m, t.OccursWith choices text (p.apply text) i m := by
  simp only [occursWith_iff wide sees, exists_and_left]
  refine ⟨fun h => ⟨h, ?_⟩, fun h => h.1⟩
  have he := mem_expand_iff.mpr ⟨choices, h.length_eq, rfl⟩
  have hwidth := wide _ he
  have hi := lt_length_of_heads_drop hwidth h.heads
  have hle := ((heads_drop_iff hi.le).mp h.heads).1
  exact ⟨_, (RegexMatcher.match?_eq_some_iff hi (by omega) hwidth).mpr ⟨by simp, rfl⟩⟩

theorem prefers_iff (wide : t.NeverEmpty) (sees : t.SeesBoundaries (p.apply text)) :
    t.Prefers choices text (p.apply text) i m ↔
      IsGreatest {c | t.pattern.MatchesWith c ((p.apply text).map Mapped.char) i} choices ∧
        RegexMatcher.match? .empty t.id ((p.apply text).drop i)
          (choose t.pattern.nodes choices).width = some m := by
  constructor
  · intro h
    obtain ⟨hmatches, hmatch⟩ := (occursWith_iff wide sees).mp h.occurs
    refine ⟨⟨hmatches, fun c hc => ?_⟩, hmatch⟩
    obtain ⟨m', hoccurs⟩ := (matchesWith_iff wide sees).mp hc
    exact h.greatest c m' hoccurs
  · intro ⟨⟨hmatches, hgreatest⟩, hmatch⟩
    refine ⟨(occursWith_iff wide sees).mpr ⟨hmatches, hmatch⟩, fun c m' hc => ?_⟩
    exact hgreatest ((matchesWith_iff wide sees).mpr ⟨m', hc⟩)

theorem Prefers.unique (wide : t.NeverEmpty) (sees : t.SeesBoundaries (p.apply text))
    {choices' : List Bool} {m' : Match} (h : t.Prefers choices text (p.apply text) i m)
    (h' : t.Prefers choices' text (p.apply text) i m') : (choices, m) = (choices', m') := by
  obtain ⟨hgreatest, hmatch⟩ := (prefers_iff wide sees).mp h
  obtain ⟨hgreatest', hmatch'⟩ := (prefers_iff wide sees).mp h'
  obtain rfl := hgreatest.unique hgreatest'
  rw [Option.some.inj (hmatch.symm.trans hmatch')]

/-- Where a term occurs with some choice, there is one that it prefers, and no other. -/
theorem existsUnique_prefers (wide : t.NeverEmpty) (sees : t.SeesBoundaries (p.apply text))
    (h : t.OccursWith choices text (p.apply text) i m) :
    ∃! x : List Bool × Match, t.Prefers x.1 text (p.apply text) i x.2 := by
  obtain ⟨c, hgreatest⟩ := Pattern.exists_isGreatest ((occursWith_iff wide sees).mp h).1
  obtain ⟨m', hoccurs⟩ := (matchesWith_iff wide sees).mp hgreatest.1
  have hprefers : t.Prefers c text (p.apply text) i m' :=
    (prefers_iff wide sees).mpr ⟨hgreatest, ((occursWith_iff wide sees).mp hoccurs).2⟩
  refine ⟨(c, m'), hprefers, fun ⟨c', m''⟩ h' => ?_⟩
  exact h'.unique wide sees hprefers

end Choices

end Term

namespace RegexMatcher

/-! What a search considers -/

/-- What the search for a term considers: what it would find if nothing were whitelisted. -/
def considered (engines : Engines) (kept : List Mapped) (t : Term) : List Match :=
  searchFrom (engines.compile t.pattern) .empty t.id kept (kept.map Mapped.char) 0

/-- What is considered for a term at an index. -/
def candidate? (t : Term) (kept : List Mapped) (i : Nat) : Option Match :=
  (t.pattern.lengthAt? (kept.map Mapped.char) i).bind (match? .empty t.id (kept.drop i))

theorem candidate?_eq_some_iff {t : Term} (wide : t.NeverEmpty) {p : Pipeline} {text : List Char}
    (sees : t.SeesBoundaries (p.apply text)) {i : Nat} {m : Match} :
    candidate? t (p.apply text) i = some m ↔
      ∃ choices, t.Prefers choices text (p.apply text) i m := by
  unfold candidate?
  rw [Option.bind_eq_some_iff]
  simp only [Pattern.lengthAt?_eq_some_iff_isGreatest, Term.prefers_iff wide sees]
  constructor
  · intro ⟨n, ⟨choices, hgreatest, hn⟩, hmatch⟩
    exact ⟨choices, hgreatest, hn ▸ hmatch⟩
  · intro ⟨choices, hgreatest, hmatch⟩
    exact ⟨_, ⟨choices, hgreatest, rfl⟩, hmatch⟩

/-- A leftmost search considers one candidate at each index. -/
theorem considered_eq {engines : Engines} {t : Term}
    (leftmost : (engines.compile t.pattern).FindsLeftmost t.pattern) (wide : t.NeverEmpty)
    (kept : List Mapped) :
    considered engines kept t = (List.range kept.length).filterMap (candidate? t kept) :=
  (searchFrom_eq leftmost (Pattern.matchesSome wide) [] kept).trans (termMatches_eq t)

theorem matchBetween?_eq_filter (whitelisted : IntervalSet) (id : Int) (kept : List Mapped)
    (first last : Nat) :
    matchBetween? whitelisted id kept first last =
      (matchBetween? .empty id kept first last).filter fun m =>
        !whitelisted.anyContains ⟨m.first, m.last⟩ := by
  unfold matchBetween?
  cases sourceSpan? kept first last with
  | none => rfl
  | some span =>
    cases h : whitelisted.anyContains ⟨span.first, span.last⟩ <;> simp [h, Option.filter_some]

/-- Whatever a search finds, the whitelist only removes what it contains. -/
theorem searchFrom_eq_filter (search : Search) (whitelisted : IntervalSet) (id : Int)
    (kept : List Mapped) (text : List Char) (pos : Nat) :
    searchFrom search whitelisted id kept text pos =
      (searchFrom search .empty id kept text pos).filter fun m =>
        !whitelisted.anyContains ⟨m.first, m.last⟩ := by
  fun_induction searchFrom search whitelisted id kept text pos with
  | case1 pos hpos h =>
    rw [searchFrom_of_none h]
    rfl
  | case2 pos hpos range h first last hle hsize ih =>
    rw [searchFrom_of_some hpos h, List.filter_append, ← ih, matchBetween?_eq_filter,
      Option.toList_filter]
  | case3 pos hpos =>
    rw [searchFrom, if_neg hpos]
    rfl

theorem searchMatches_eq_filter (r : RegexMatcher) (engines : Engines) (input : String) :
    r.searchMatches engines input =
      (r.terms.flatMap (considered engines (r.pipeline.apply input.toList))).filter fun m =>
        !(r.whitelist.scan input.toList).anyContains ⟨m.first, m.last⟩ := by
  rw [List.filter_flatMap]
  exact List.flatMap_congr fun t _ => searchFrom_eq_filter _ _ _ _ _ _

section Built

variable {o : Options} {r : RegexMatcher} (built : build o = .ok r)
  (wide : ∀ t ∈ o.terms, t.NeverEmpty)
  (boundaries : o.blacklistPipeline.transformers = [] ∨
    ∀ t ∈ o.terms, ¬t.pattern.startBoundary ∧ ¬t.pattern.endBoundary)
  {engines : Engines}
  (leftmost : ∀ t ∈ o.terms, (engines.compile t.pattern).FindsLeftmost t.pattern)

include built wide boundaries leftmost

/-- What the regular expressions find: what they prefer, unless a whitelisted span contains it. -/
theorem mem_searchMatches_iff {input : String} {m : Match} :
    m ∈ r.searchMatches engines input ↔
      (∃ t ∈ o.terms, ∃ i choices,
        t.Prefers choices input.toList (o.blacklistPipeline.apply input.toList) i m) ∧
      ∀ span ∈ (r.whitelist.scan input.toList).toList, ¬span.contains ⟨m.first, m.last⟩ := by
  rw [searchMatches_eq_filter, List.mem_filter, List.mem_flatMap, Bool.not_eq_true',
    ← Bool.not_eq_true, Whitelist.not_anyContains_scan_iff, (builtFrom built).terms_eq,
    (builtFrom built).pipeline_eq]
  refine and_congr_left fun _ => exists_congr fun t => and_congr_right fun ht => ?_
  have hsees := seesBoundaries (boundaries.imp_right fun h => h t ht) input.toList
  rw [considered_eq (leftmost t ht) (wide t ht), List.mem_filterMap]
  simp only [candidate?_eq_some_iff (wide t ht) hsees, List.mem_range]
  refine exists_congr fun i => and_iff_right_of_imp ?_
  intro ⟨choices, h⟩
  obtain ⟨j, hoccurs⟩ := h.occurs.2
  exact hoccurs.getElem_first.1

/-- No two matches of a term start at the same place. -/
theorem nodup_places (input : String) :
    ((r.searchMatches engines input).map fun m => (m.termId, m.first)).Nodup := by
  have hnodup : (r.searchMatches engines input).Nodup := by
    have hterms := (builtFrom built).terms_eq
    rw [r.searchMatches_eq (hterms ▸ leftmost)
      (hterms ▸ fun t ht => Pattern.matchesSome (wide t ht))]
    exact nodup_allMatches built input
  refine hnodup.map_on fun m hm m' hm' heq => ?_
  obtain ⟨hid, hfirst⟩ := Prod.mk.inj heq
  rw [mem_searchMatches_iff built wide boundaries leftmost] at hm hm'
  obtain ⟨⟨t, ht, i, choices, hprefers⟩, -⟩ := hm
  obtain ⟨⟨t', ht', i', choices', hprefers'⟩, -⟩ := hm'
  obtain ⟨j, hoccurs⟩ := hprefers.occurs.2
  obtain ⟨j', hoccurs'⟩ := hprefers'.occurs.2
  obtain rfl : t = t' := by
    refine List.inj_on_of_nodup_map (Term.nodup_ids (builtFrom built).valid) ht ht' ?_
    rw [← hoccurs.termId_eq, ← hoccurs'.termId_eq, hid]
  obtain ⟨hi, hplace⟩ := hoccurs.getElem_first
  obtain ⟨hi', hplace'⟩ := hoccurs'.getElem_first
  obtain rfl : i = i' := Pipeline.eq_of_first_eq hi hi' (by rw [hplace, hplace', hfirst])
  have hsees := seesBoundaries (boundaries.imp_right fun h => h t ht) input.toList
  exact (Prod.mk.inj (hprefers.unique (wide t ht) hsees hprefers')).2

end Built

end RegexMatcher

theorem Whitelist.scan_of_build_nil {p : Pipeline} {w : Whitelist} (built : build [] p = .ok w)
    (text : List Char) : w.scan text = .empty := by
  obtain rfl := Except.ok.inj built
  rfl

/-- For each term and each index at which it occurs, the regular expressions consider the match
with the greatest choice of optionals and no other, and report it unless a whitelisted span contains
it. The automaton reports it as well; and with nothing whitelisted, both report matches of the same
terms from the same places on. All that is asked of a compiled expression is that it does what its
tokens say. -/
theorem optionals_agree {o : Options} {a : Automaton} {r : RegexMatcher}
    (builtAutomaton : Automaton.build o = .ok a) (builtRegex : RegexMatcher.build o = .ok r)
    (wide : ∀ t ∈ o.terms, t.NeverEmpty)
    (boundaries : o.blacklistPipeline.transformers = [] ∨
      ∀ t ∈ o.terms, ¬t.pattern.startBoundary ∧ ¬t.pattern.endBoundary)
    {engines : Engines} (follow : ∀ t ∈ o.terms, engines.Follow t.pattern)
    {input : String} {found : List Match} (scanned : a.allMatches input = .ok found) :
    let text := input.toList
    let kept := o.blacklistPipeline.apply text
    let reported := r.searchMatches engines input
    (∀ t ∈ o.terms, ∃ candidate : Nat → Option Match,
      RegexMatcher.considered engines kept t = (List.range kept.length).filterMap candidate ∧
      ∀ i, (∀ m, candidate i = some m ↔ ∃ choices, t.Prefers choices text kept i m) ∧
        ∀ choices m, t.OccursWith choices text kept i m →
          ∃! x : List Bool × Match, t.Prefers x.1 text kept i x.2) ∧
    reported = (o.terms.flatMap (RegexMatcher.considered engines kept)).filter (fun m =>
      ∀ span ∈ (r.whitelist.scan text).toList, ¬span.contains ⟨m.first, m.last⟩) ∧
    (reported.map fun m => (m.termId, m.first)).Nodup ∧
    (∀ m ∈ reported, m ∈ found) ∧
    (o.whitelist = [] → ∀ id first,
      (∃ m ∈ reported, m.termId = id ∧ m.first = first) ↔
        ∃ m ∈ found, m.termId = id ∧ m.first = first) := by
  intro text kept reported
  have leftmost := fun t ht => Engines.follow_iff.mp (follow t ht)
  have facts := RegexMatcher.builtFrom builtRegex
  have hsame : a.whitelist = r.whitelist :=
    Except.ok.inj ((Automaton.builtFrom builtAutomaton).whitelist_eq.symm.trans facts.whitelist_eq)
  have hreported (m : Match) : m ∈ reported ↔ _ :=
    RegexMatcher.mem_searchMatches_iff builtRegex wide boundaries leftmost
  have hfound (m : Match) : m ∈ found ↔
      (∃ t ∈ o.terms, ∃ e i j, t.OccursAt e text kept i j m) ∧
        ∀ span ∈ (r.whitelist.scan text).toList, ¬span.contains ⟨m.first, m.last⟩ := by
    rw [← hsame]
    exact Automaton.mem_allMatches_iff builtAutomaton wide scanned
  have hsubset : ∀ m ∈ reported, m ∈ found := by
    intro m hm
    obtain ⟨⟨t, ht, i, choices, hprefers⟩, hspans⟩ := (hreported m).mp hm
    obtain ⟨j, hoccurs⟩ := hprefers.occurs.2
    exact (hfound m).mpr ⟨⟨t, ht, _, i, j, hoccurs⟩, hspans⟩
  have hsees {t : Term} (ht : t ∈ o.terms) : t.SeesBoundaries kept :=
    seesBoundaries (boundaries.imp_right fun h => h t ht) text
  refine ⟨fun t ht => ⟨RegexMatcher.candidate? t kept,
    RegexMatcher.considered_eq (leftmost t ht) (wide t ht) kept, fun i =>
      ⟨fun m => RegexMatcher.candidate?_eq_some_iff (wide t ht) (hsees ht), fun choices m h =>
        Term.existsUnique_prefers (wide t ht) (hsees ht) h⟩⟩, ?_,
    RegexMatcher.nodup_places builtRegex wide boundaries leftmost input, hsubset, ?_⟩
  · have hfilter := r.searchMatches_eq_filter engines input
    rw [facts.terms_eq, facts.pipeline_eq] at hfilter
    refine hfilter.trans (List.filter_congr fun m _ => ?_)
    rw [Bool.eq_iff_iff, Bool.not_eq_true', ← Bool.not_eq_true,
      Whitelist.not_anyContains_scan_iff, decide_eq_true_eq]
  · intro hnothing id first
    have hempty : r.whitelist.scan text = .empty :=
      Whitelist.scan_of_build_nil (hnothing ▸ facts.whitelist_eq) text
    constructor
    · intro ⟨m, hm, h⟩
      exact ⟨m, hsubset m hm, h⟩
    · rintro ⟨m, hm, rfl, rfl⟩
      obtain ⟨⟨t, ht, e, i, j, hoccurs⟩, -⟩ := (hfound m).mp hm
      obtain ⟨choices, hlength, rfl⟩ := mem_expand_iff.mp hoccurs.expands
      obtain ⟨⟨choices', m'⟩, hprefers, -⟩ :=
        Term.existsUnique_prefers (wide t ht) (hsees ht) ⟨hlength, j, hoccurs⟩
      obtain ⟨j', hoccurs'⟩ := hprefers.occurs.2
      have hspans : ∀ span ∈ (r.whitelist.scan text).toList,
          ¬span.contains ⟨m'.first, m'.last⟩ := by
        rw [hempty]
        exact List.forall_mem_nil _
      exact ⟨m', (hreported m').mpr ⟨⟨t, ht, i, choices', hprefers⟩, hspans⟩,
        hoccurs'.termId_eq.trans hoccurs.termId_eq.symm,
        Option.some.inj (hoccurs'.first_eq.symm.trans hoccurs.first_eq)⟩

/-! A sample -/

/-- Two terms with optionals, one of them with a boundary at its end. -/
def optionalOptions : Options where
  terms := [⟨7, ⟨false, false,
      [.one (.literal ['a']), .optional (.literal ['b']), .optional (.literal ['b', 'c'])]⟩⟩,
    ⟨9, ⟨false, true, [.one (.literal ['b']), .optional .wildcard]⟩⟩]
  whitelist := []
  blacklistPipeline := .identity
  whitelistPipeline := .identity
  limit := none

/-- The automaton of the sample. -/
def optionalAutomaton : Automaton :=
  .ofVariants [⟨7, false, false, [.literal ['a']]⟩, ⟨7, false, false, [.literal ['a', 'b']]⟩,
      ⟨7, false, false, [.literal ['a', 'b', 'c']]⟩,
      ⟨7, false, false, [.literal ['a', 'b', 'b', 'c']]⟩, ⟨9, false, true, [.literal ['b']]⟩,
      ⟨9, false, true, [.literal ['b'], .wildcard]⟩]
    (.ofWords [] .identity) .identity Automaton.defaultLimit

theorem build_optionalOptions : Automaton.build optionalOptions = .ok optionalAutomaton := by
  have hvariants : optionalOptions.terms.flatMap Variant.ofTerm = optionalAutomaton.variants := by
    simp only [optionalOptions, List.flatMap_cons, List.flatMap_nil, Variant.ofTerm_eq]
    rfl
  refine Automaton.build_eq_ok_iff.mpr ⟨rfl, _, rfl, ?_⟩
  rw [hvariants]
  rfl

/-- The automaton reports three matches of the first term from the same place on. -/
theorem optionals_agree_sample :
    let r : RegexMatcher := ⟨optionalOptions.terms, .ofWords [] .identity, .identity⟩
    let found : List Match := [⟨7, 1, 0, 0⟩, ⟨7, 2, 0, 1⟩, ⟨9, 2, 1, 2⟩, ⟨7, 3, 0, 2⟩, ⟨9, 2, 4, 5⟩,
      ⟨9, 1, 5, 5⟩]
    let reported := r.searchMatches (.ofTerms optionalOptions.terms) "abc bb"
    optionalAutomaton.allMatches "abc bb" = .ok found ∧
      (reported.map fun m => (m.termId, m.first)).Nodup ∧ (∀ m ∈ reported, m ∈ found) ∧
      ∀ id first, (∃ m ∈ reported, m.termId = id ∧ m.first = first) ↔
        ∃ m ∈ found, m.termId = id ∧ m.first = first := by
  intro r found reported
  have wide : ∀ t ∈ optionalOptions.terms, t.NeverEmpty := by
    simp only [optionalOptions, Term.NeverEmpty]
    decide
  have hfound : optionalAutomaton.allMatches "abc bb" = .ok found := by decide +kernel
  have follow : ∀ t ∈ optionalOptions.terms,
      (Engines.ofTerms optionalOptions.terms).Follow t.pattern :=
    Engines.follow_ofTerms (by decide)
  obtain ⟨-, -, hnodup, hsubset, hsame⟩ :=
    optionals_agree build_optionalOptions rfl wide (.inl rfl) follow hfound
  exact ⟨hfound, hnodup, hsubset, hsame rfl⟩

end TermScan
