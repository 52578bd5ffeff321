import TermScan.Proofs.Regex.Optionals
import TermScan.Proofs.Standing
import TermScan.Transform.Builtin

/-!
# Boundaries under transformation

The automaton looks for a boundary next to a match in the source, the regular expressions look for
it next to the match among the characters kept. A transformer may rename the neighbour, drop it or
let a farther one move up, so the matchers agree only where both see the same.
-/
namespace TermScan

/-- The character kept right before an index. -/
def keptBefore? (kept : List Mapped) (i : Nat) : Option Char :=
  ((kept.map Mapped.char).take i).getLast?

/-- The character kept right after an index. -/
def keptAfter? (kept : List Mapped) (j : Nat) : Option Char :=
  ((kept.map Mapped.char).drop (j + 1)).head?

namespace RegexMatcher

variable {o : Options} {r : RegexMatcher}

/-- A plain term is found where it stands with its boundaries among the characters kept and no
whitelisted span contains it. -/
theorem mem_termMatches_iff_bounded {t : Term} {e : Expansion} (he : expand t.pattern.nodes = [e])
    (wide : 0 < e.width) {p : Pipeline} {text : List Char} {whitelisted : IntervalSet} {m : Match} :
    m ∈ termMatches whitelisted (p.apply text) t ↔
      (∃ i j, t.unbounded.OccursAt e text (p.apply text) i j m ∧
        t.Bounded (keptBefore? (p.apply text) i) (keptAfter? (p.apply text) j)) ∧
      ¬whitelisted.anyContains ⟨m.first, m.last⟩ := by
  have hmem : e ∈ expand t.pattern.nodes := by simp [he]
  have hlast {i j : Nat} (h : t.unbounded.OccursAt e text (p.apply text) i j m) :
      j + 1 = i + e.width := by
    have := h.first_le_last
    have := h.width_eq
    omega
  rw [termMatches_eq]
  simp only [List.mem_filterMap, List.mem_range, Option.bind_eq_some_iff,
    Pattern.lengthAt?_eq_some_iff he]
  constructor
  · rintro ⟨i, -, n, ⟨hstart, rfl, hheads, hend⟩, hmatch⟩
    rw [match?_eq_filter, Option.filter_eq_some_iff] at hmatch
    obtain ⟨j, hstands⟩ := (Term.exists_unbounded_iff hmem wide).mpr ⟨hheads, hmatch.1⟩
    rw [← hlast hstands] at hend
    exact ⟨⟨i, j, hstands, hstart, hend⟩, by simpa using hmatch.2⟩
  · rintro ⟨⟨i, j, hstands, hstart, hend⟩, hexcused⟩
    obtain ⟨hheads, hmatch⟩ := (Term.exists_unbounded_iff hmem wide).mp ⟨j, hstands⟩
    rw [keptAfter?, hlast hstands] at hend
    refine ⟨i, lt_length_of_heads_drop wide hheads, e.width, ⟨hstart, rfl, hheads, hend⟩, ?_⟩
    rw [match?_eq_filter, Option.filter_eq_some_iff]
    exact ⟨hmatch, by simpa using hexcused⟩

/-- What the regular expressions of plain terms find. -/
theorem mem_searchMatches_iff_bounded (built : build o = .ok r)
    (plain : ∀ t ∈ o.terms, t.pattern.IsPlain) (wide : ∀ t ∈ o.terms, t.NeverEmpty)
    {engines : Engines}
    (leftmost : ∀ t ∈ o.terms, (engines.compile t.pattern).FindsLeftmost t.pattern)
    {input : String} {m : Match} :
    let kept := o.blacklistPipeline.apply input.toList
    m ∈ r.searchMatches engines input ↔
      (∃ t ∈ o.terms, ∃ e i j, t.unbounded.OccursAt e input.toList kept i j m ∧
        t.Bounded (keptBefore? kept i) (keptAfter? kept j)) ∧
      ∀ span ∈ (r.whitelist.scan input.toList).toList, ¬span.contains ⟨m.first, m.last⟩ := by
  intro kept
  have facts := builtFrom built
  rw [r.searchMatches_eq (facts.terms_eq ▸ leftmost)
    (facts.terms_eq ▸ fun t ht => Pattern.matchesSome (wide t ht)), allMatches, facts.terms_eq,
    facts.pipeline_eq, List.mem_flatMap, ← Whitelist.not_anyContains_scan_iff]
  constructor
  · rintro ⟨t, ht, hm⟩
    obtain ⟨e, he⟩ := Pattern.exists_expand_eq (plain t ht)
    have hwide : 0 < e.width := wide t ht e (by simp [he])
    obtain ⟨⟨i, j, h⟩, hexcused⟩ := (mem_termMatches_iff_bounded he hwide).mp hm
    exact ⟨⟨t, ht, e, i, j, h⟩, hexcused⟩
  · rintro ⟨⟨t, ht, e, i, j, hstands, hbounded⟩, hexcused⟩
    obtain ⟨e', he⟩ := Pattern.exists_expand_eq (plain t ht)
    have hexpands : e ∈ expand t.pattern.nodes := hstands.expands
    obtain rfl : e = e' := by simpa [he] using hexpands
    have hwide := wide t ht e hexpands
    exact ⟨t, ht, (mem_termMatches_iff_bounded he hwide).mpr ⟨⟨i, j, hstands, hbounded⟩, hexcused⟩⟩

end RegexMatcher

/-- Each matcher finds the plain terms that stand in the text with the boundaries it sees, the
automaton next to them in the source, the regular expressions among the characters kept. So they
find the same if and only if the two views agree on whatever stands there and is not excused. -/
theorem boundaries_exact {o : Options} {a : Automaton} {r : RegexMatcher}
    (builtAutomaton : Automaton.build o = .ok a) (builtRegex : RegexMatcher.build o = .ok r)
    (plain : ∀ t ∈ o.terms, t.pattern.IsPlain) (wide : ∀ t ∈ o.terms, t.NeverEmpty)
    {engines : Engines} (follow : ∀ t ∈ o.terms, engines.Follow t.pattern)
    {input : String} {found : List Match} (scanned : a.allMatches input = .ok found) :
    let text := input.toList
    let kept := o.blacklistPipeline.apply text
    let reported := r.searchMatches engines input
    let unexcused (m : Match) : Prop :=
      ∀ span ∈ (a.whitelist.scan text).toList, ¬span.contains ⟨m.first, m.last⟩
    (∀ m, m ∈ found ↔
      (∃ t ∈ o.terms, ∃ e i j, t.unbounded.OccursAt e text kept i j m ∧
        t.Bounded (charBefore? text m.first) (charAfter? text m.last)) ∧ unexcused m) ∧
    (∀ m, m ∈ reported ↔
      (∃ t ∈ o.terms, ∃ e i j, t.unbounded.OccursAt e text kept i j m ∧
        t.Bounded (keptBefore? kept i) (keptAfter? kept j)) ∧ unexcused m) ∧
    ((∀ m, m ∈ found ↔ m ∈ reported) ↔
      ∀ t ∈ o.terms, ∀ e i j m, t.unbounded.OccursAt e text kept i j m → unexcused m →
        (t.Bounded (charBefore? text m.first) (charAfter? text m.last) ↔
          t.Bounded (keptBefore? kept i) (keptAfter? kept j))) := by
  intro text kept reported unexcused
  have leftmost := fun t ht => Engines.follow_iff.mp (follow t ht)
  have facts := Automaton.builtFrom builtAutomaton
  have hsame : r.whitelist = a.whitelist :=
    Except.ok.inj ((RegexMatcher.builtFrom builtRegex).whitelist_eq.symm.trans facts.whitelist_eq)
  have hfound (m : Match) : m ∈ found ↔
      (∃ t ∈ o.terms, ∃ e i j, t.unbounded.OccursAt e text kept i j m ∧
        t.Bounded (charBefore? text m.first) (charAfter? text m.last)) ∧ unexcused m := by
    rw [Automaton.mem_allMatches_iff builtAutomaton wide scanned]
    refine and_congr_left fun _ => exists_congr fun t => and_congr_right fun _ => ?_
    exact exists_congr fun e => exists_congr fun i => exists_congr fun j =>
      Term.occursAt_iff_bounded
  have hreported (m : Match) : m ∈ reported ↔
      (∃ t ∈ o.terms, ∃ e i j, t.unbounded.OccursAt e text kept i j m ∧
        t.Bounded (keptBefore? kept i) (keptAfter? kept j)) ∧ unexcused m := by
    have h : m ∈ reported ↔ _ :=
      RegexMatcher.mem_searchMatches_iff_bounded builtRegex plain wide leftmost
    rwa [hsame] at h
  refine ⟨hfound, hreported, ?_⟩
  constructor
  · intro hagree t ht e i j m hstands hunexcused
    have hids := Term.nodup_ids facts.valid
    have hm := hagree m
    rw [hfound, hreported, Term.exists_standing_iff hids ht hstands,
      Term.exists_standing_iff hids ht hstands] at hm
    simpa [hunexcused] using hm
  · intro hviews m
    rw [hfound, hreported]
    refine and_congr_left fun hunexcused => exists_congr fun t => and_congr_right fun ht => ?_
    refine exists_congr fun e => exists_congr fun i => exists_congr fun j => ?_
    exact and_congr_right fun hstands => hviews t ht e i j m hstands hunexcused

/-! A sample -/

/-- A whole word is searched for, in text as it is recommended for English. -/
def wordOptions : Options where
  terms := [⟨0, ⟨true, true, [.one (.literal ['a', 's', 's'])]⟩⟩]
  whitelist := []
  blacklistPipeline := .englishBlacklist
  whitelistPipeline := .englishWhitelist
  limit := none

/-- The automaton of the sample. -/
def wordAutomaton : Automaton :=
  .ofVariants [⟨0, true, true, [.literal ['a', 's', 's']]⟩] (.ofWords [] .englishWhitelist)
    .englishBlacklist Automaton.defaultLimit

/-- The regular expressions of the sample. -/
def wordMatcher : RegexMatcher :=
  ⟨wordOptions.terms, .ofWords [] .englishWhitelist, .englishBlacklist⟩

theorem build_wordOptions : Automaton.build wordOptions = .ok wordAutomaton := by
  have hvariants : wordOptions.terms.flatMap Variant.ofTerm = wordAutomaton.variants := by
    simp only [wordOptions, List.flatMap_cons, List.flatMap_nil, Variant.ofTerm_eq]
    rfl
  refine Automaton.build_eq_ok_iff.mpr ⟨rfl, _, rfl, ?_⟩
  rw [hvariants]
  rfl

theorem isPlain_wordOptions : ∀ t ∈ wordOptions.terms, t.pattern.IsPlain := by
  simp only [wordOptions, Pattern.IsPlain]
  decide

theorem neverEmpty_wordOptions : ∀ t ∈ wordOptions.terms, t.NeverEmpty := by
  simp only [wordOptions, Term.NeverEmpty]
  decide

theorem follow_wordOptions : ∀ t ∈ wordOptions.terms,
    (Engines.ofTerms wordOptions.terms).Follow t.pattern :=
  Engines.follow_ofTerms (by decide)

theorem allMatches_wordOptions : wordAutomaton.allMatches "asss" = .ok [] := by decide +kernel

theorem mem_searchMatches_wordOptions : ⟨0, 3, 0, 2⟩ ∈
    wordMatcher.searchMatches (.ofTerms wordOptions.terms) "asss" := by
  have hsearch := wordMatcher.searchMatches_eq
    (fun t ht => Engines.follow_iff.mp (follow_wordOptions t ht))
    (fun t ht => Pattern.matchesSome (neverEmpty_wordOptions t ht)) "asss"
  rw [hsearch]
  decide +kernel

/-- The second `s` is the last one kept of three, so only the regular expression sees a boundary
behind it. -/
theorem boundaries_exact_sample :
    let text := "asss".toList
    let kept := Pipeline.englishBlacklist.apply text
    let reported := wordMatcher.searchMatches (.ofTerms wordOptions.terms) "asss"
    wordAutomaton.allMatches "asss" = .ok [] ∧ ⟨0, 3, 0, 2⟩ ∈ reported ∧
      ¬∀ t ∈ wordOptions.terms, ∀ e i j m, t.unbounded.OccursAt e text kept i j m →
        (∀ span ∈ (wordAutomaton.whitelist.scan text).toList, ¬span.contains ⟨m.first, m.last⟩) →
        (t.Bounded (charBefore? text m.first) (charAfter? text m.last) ↔
          t.Bounded (keptBefore? kept i) (keptAfter? kept j)) := by
  intro text kept reported
  obtain ⟨-, -, hagree⟩ := boundaries_exact build_wordOptions rfl isPlain_wordOptions
    neverEmpty_wordOptions follow_wordOptions allMatches_wordOptions
  refine ⟨allMatches_wordOptions, mem_searchMatches_wordOptions, fun hviews => ?_⟩
  exact List.not_mem_nil ((hagree.mpr hviews _).mpr mem_searchMatches_wordOptions)

/-- Under the transformers recommended for English the matchers do not always find the same. -/
theorem boundaries_disagree :
    ¬∀ (o : Options) (a : Automaton) (r : RegexMatcher) (engines : Engines) (input : String)
      (found : List Match), Automaton.build o = .ok a → RegexMatcher.build o = .ok r →
      o.blacklistPipeline = .englishBlacklist → (∀ t ∈ o.terms, t.pattern.IsPlain) →
      (∀ t ∈ o.terms, t.NeverEmpty) →
      (∃ t ∈ o.terms, t.pattern.startBoundary ∨ t.pattern.endBoundary) →
      (∀ t ∈ o.terms, engines.Follow t.pattern) →
      a.allMatches input = .ok found → ∀ m, m ∈ found ↔ m ∈ r.searchMatches engines input := by
  intro hagree
  have hasked : ∃ t ∈ wordOptions.terms, t.pattern.startBoundary ∨ t.pattern.endBoundary :=
    ⟨_, List.mem_singleton_self _, .inl rfl⟩
  have h := hagree wordOptions wordAutomaton wordMatcher (.ofTerms wordOptions.terms) "asss" []
    build_wordOptions rfl rfl isPlain_wordOptions neverEmpty_wordOptions hasked
    follow_wordOptions allMatches_wordOptions ⟨0, 3, 0, 2⟩
  exact List.not_mem_nil (h.mpr mem_searchMatches_wordOptions)

end TermScan
