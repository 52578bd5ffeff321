import Mathlib.Algebra.BigOperators.Group.List.Basic
import TermScan.Proofs.Automaton.Limit
import TermScan.Proofs.EarlyExit
import TermScan.Proofs.Standing
import TermScan.Proofs.Whitelist

/-!
# The order of terms and phrases

What a matcher is built from is listed in some order, and the order shapes the trie, the numbers of
the variants and the order in which matches are found. Nothing of this is left once the matches are
sorted, because position and term tell them apart; and the limit is exceeded at the same character.
-/
namespace TermScan

/-- The options differ at most in the order of terms and in the order and repetition of phrases. -/
structure Options.Reorders (o o' : Options) : Prop where
  terms : o.terms.Perm o'.terms
  phrases : ∀ phrase, phrase ∈ o.whitelist ↔ phrase ∈ o'.whitelist
  blacklistPipeline_eq : o.blacklistPipeline = o'.blacklistPipeline
  whitelistPipeline_eq : o.whitelistPipeline = o'.whitelistPipeline
  limit_eq : o.limit = o'.limit

namespace Whitelist

variable {phrases phrases' : List String} {p : Pipeline} {w w' : Whitelist}

/-- A scan holds the bytes of each occurrence of a phrase and nothing else. -/
theorem mem_scan_iff (built : build phrases p = .ok w) {text : List Char} {span : Interval} :
    span ∈ (w.scan text).toList ↔
      ∃ x : Occurrence, x.Holds (words phrases p) (p.apply text) ∧ x.bytes = span := by
  obtain ⟨filled, rfl⟩ := build_eq_ok_iff.mp built
  have hlisted (items : List Interval) :
      span ∈ (IntervalSet.empty.insertAll items).toList ↔ span ∈ items := by
    rw [IntervalSet.toList_insertAll_empty]
    split_ifs
    · exact Iff.rfl
    · exact (List.mergeSort_perm _ _).mem_iff
  rw [scan_eq p filled, hlisted, List.mem_map]
  simp only [mem_occurrences_iff]

/-- Only which phrases there are counts. -/
theorem mem_scan_congr (built : build phrases p = .ok w) (built' : build phrases' p = .ok w')
    (same : ∀ phrase, phrase ∈ phrases ↔ phrase ∈ phrases') {text : List Char} {span : Interval} :
    span ∈ (w.scan text).toList ↔ span ∈ (w'.scan text).toList := by
  have hwords (word : List Char) : word ∈ words phrases p ↔ word ∈ words phrases' p := by
    simp only [words, List.mem_map, same]
  rw [mem_scan_iff built, mem_scan_iff built']
  refine exists_congr fun x => and_congr_left fun _ => ?_
  constructor
  · intro ⟨hle, hstands, hlower, hupper⟩
    exact ⟨hle, (hwords _).mp hstands, hlower, hupper⟩
  · intro ⟨hle, hstands, hlower, hupper⟩
    exact ⟨hle, (hwords _).mpr hstands, hlower, hupper⟩

end Whitelist

/-! Loads -/

namespace Term

variable {terms terms' : List Term}

theorem load_of_perm (h : terms.Perm terms') (text : List Char) (kept : List Mapped) (k : Nat) :
    load terms text kept k = load terms' text kept k := (h.map _).sum_eq

theorem patternCount_of_perm (h : terms.Perm terms') : patternCount terms = patternCount terms' :=
  (h.map _).sum_eq

end Term

variable {o o' : Options}

namespace Automaton

variable {a a' : Automaton}

theorem nodup_of_allMatches (built : build o = .ok a) {input : String} {found : List Match}
    (h : a.allMatches input = .ok found) : found.Nodup := by
  obtain ⟨-, rfl⟩ := (allMatches_eq_ok_iff (builtFrom built).sound).mp h
  exact a.nodup_found _ _ _ (Nat.le_refl _)

theorem distinguished_of_allMatches (built : build o = .ok a) (wide : ∀ t ∈ o.terms, t.NeverEmpty)
    {input : String} {found : List Match} (h : a.allMatches input = .ok found) :
    Match.Distinguished found := by
  have hstands : ∀ m ∈ (a.scan input).1, Term.Stands o.terms input.toList _ m := fun _ hm =>
    stands_of_mem_scan built wide hm
  rw [allMatches] at h
  split at h
  · contradiction
  · next hscan =>
    rw [hscan, Except.ok.inj h] at hstands
    exact Term.distinguished_of_stands hstands

section Reordered

variable (reorders : o.Reorders o') (built : build o = .ok a) (built' : build o' = .ok a')

include reorders built built'

theorem pipeline_of_reorders : a'.pipeline = a.pipeline := by
  rw [(builtFrom built).pipeline_eq, (builtFrom built').pipeline_eq, reorders.blacklistPipeline_eq]

theorem limit_of_reorders : a'.limit = a.limit := by
  rw [(builtFrom built).limit_eq, (builtFrom built').limit_eq, reorders.limit_eq]

theorem limitError_of_reorders (input : String) (m : Mapped) :
    a'.limitError input m = a.limitError input m := by
  rw [limitError, limitError, variantCount_eq built, variantCount_eq built',
    Term.patternCount_of_perm reorders.terms, limit_of_reorders reorders built built']

/-- As many walks are under way. -/
theorem loadAt_of_reorders {text : List Char} {k : Nat}
    (hk : k < (a.pipeline.apply text).length) :
    a'.loadAt (a.pipeline.apply text) k = a.loadAt (a.pipeline.apply text) k := by
  have hpipeline := pipeline_of_reorders reorders built built'
  have h : a'.loadAt (a'.pipeline.apply text) k = _ := loadAt_eq_load built' (hpipeline ▸ hk)
  rw [hpipeline] at h
  rw [h, loadAt_eq_load built hk, Term.load_of_perm reorders.terms]

/-- Scans that succeed find the same matches. -/
theorem perm_of_reorders (wide : ∀ t ∈ o.terms, t.NeverEmpty) {input : String}
    {found found' : List Match} (hfound : a.allMatches input = .ok found)
    (hfound' : a'.allMatches input = .ok found') : found.Perm found' := by
  have wide' : ∀ t ∈ o'.terms, t.NeverEmpty := fun t ht => wide t (reorders.terms.mem_iff.mpr ht)
  have hsame (span : Interval) : span ∈ (a.whitelist.scan input.toList).toList ↔
      span ∈ (a'.whitelist.scan input.toList).toList :=
    Whitelist.mem_scan_congr (builtFrom built).whitelist_eq
      (reorders.whitelistPipeline_eq ▸ (builtFrom built').whitelist_eq) reorders.phrases
  refine (List.perm_ext_iff_of_nodup (nodup_of_allMatches built hfound)
    (nodup_of_allMatches built' hfound')).mpr fun m => ?_
  rw [mem_allMatches_iff built wide hfound, mem_allMatches_iff built' wide' hfound',
    reorders.blacklistPipeline_eq]
  simp only [reorders.terms.mem_iff, hsame]

/-- Either both scans fail, with the same failure, or both succeed. -/
theorem allMatches_of_reorders (input : String) :
    (∃ e, a.allMatches input = .error e ∧ a'.allMatches input = .error e) ∨
      ∃ found found', a.allMatches input = .ok found ∧ a'.allMatches input = .ok found' := by
  have sound := (builtFrom built).sound
  have sound' := (builtFrom built').sound
  have hpipeline := pipeline_of_reorders reorders built built'
  have hlimit := limit_of_reorders reorders built built'
  have hwithin {k : Nat} (hk : k < (a.pipeline.apply input.toList).length) :
      a'.loadAt (a.pipeline.apply input.toList) k ≤ a'.limit ↔
        a.loadAt (a.pipeline.apply input.toList) k ≤ a.limit := by
    rw [loadAt_of_reorders reorders built built' hk, hlimit]
  rcases a.loadAt_cases (a.pipeline.apply input.toList) with
    hholds | ⟨n, hn, hexceeds, hholds⟩
  · have hholds' : ∀ k < (a'.pipeline.apply input.toList).length,
        a'.loadAt (a'.pipeline.apply input.toList) k ≤ a'.limit := by
      rw [hpipeline]
      exact fun k hk => (hwithin hk).mpr (hholds k hk)
    exact .inr ⟨_, _, (allMatches_eq_ok_iff sound).mpr ⟨hholds, rfl⟩,
      (allMatches_eq_ok_iff sound').mpr ⟨hholds', rfl⟩⟩
  · have hholds' : ∀ k < n, a'.loadAt (a.pipeline.apply input.toList) k ≤ a'.limit := fun k hk =>
      (hwithin (hk.trans hn)).mpr (hholds k hk)
    have hexceeds' : a'.limit < a'.loadAt (a.pipeline.apply input.toList) n :=
      Nat.not_le.mp fun hle => Nat.not_le.mpr hexceeds ((hwithin hn).mp hle)
    refine .inl ⟨a.limitError input (a.pipeline.apply input.toList)[n], ?_, ?_⟩
    · rw [allMatches, scan, a.scanFrom_of_lt sound input _ hn hholds hexceeds]
    · rw [allMatches, scan, hpipeline, a'.scanFrom_of_lt sound' input _ hn hholds' hexceeds',
        limitError_of_reorders reorders built built']

end Reordered

end Automaton

namespace RegexMatcher

variable {r r' : RegexMatcher} {engines : FallibleEngines}

/-- All matches by position, as long as no search is given up; the first failure otherwise. -/
theorem collect_eq (r : RegexMatcher) (engines : FallibleEngines) (input : String) :
    r.collect engines input true =
      match r.terms.findSome? (failure? engines (r.pipeline.apply input.toList)) with
      | some e => .error e
      | none => .ok (Match.sort ((r.terms.flatMap (passed engines
          (r.pipeline.apply input.toList))).filter (r.whitelist.scan input.toList).allows)) := by
  rw [collect, haystack, scanTerms_eq]
  cases r.terms.findSome? (failure? engines (r.pipeline.apply input.toList)) <;> rfl

theorem collect_eq_error_iff {input : String} {e : Error} :
    r.collect engines input true = .error e ↔
      r.terms.findSome? (failure? engines (r.pipeline.apply input.toList)) = some e := by
  rw [collect_eq]
  cases r.terms.findSome? (failure? engines (r.pipeline.apply input.toList)) <;> simp

theorem collect_eq_ok_iff {input : String} {sorted : List Match} :
    r.collect engines input true = .ok sorted ↔
      r.terms.findSome? (failure? engines (r.pipeline.apply input.toList)) = none ∧
      Match.sort ((r.terms.flatMap (passed engines (r.pipeline.apply input.toList))).filter
        (r.whitelist.scan input.toList).allows) = sorted := by
  rw [collect_eq]
  cases r.terms.findSome? (failure? engines (r.pipeline.apply input.toList)) <;> simp

/-- Neither the place nor the repetition of a phrase has a say in what is allowed. -/
theorem allows_of_reorders (reorders : o.Reorders o') (built : build o = .ok r)
    (built' : build o' = .ok r') (text : List Char) :
    (r.whitelist.scan text).allows = (r'.whitelist.scan text).allows := by
  have whitelist_eq' := (builtFrom built').whitelist_eq
  rw [← reorders.whitelistPipeline_eq] at whitelist_eq'
  ext m
  rw [IntervalSet.allows, IntervalSet.allows, Bool.not_inj_iff, Bool.eq_iff_iff, ← not_iff_not,
    Whitelist.not_anyContains_scan_iff, Whitelist.not_anyContains_scan_iff]
  refine forall_congr' fun span => imp_congr ?_ Iff.rfl
  exact Whitelist.mem_scan_congr (builtFrom built).whitelist_eq whitelist_eq' reorders.phrases

section Borders

variable (built : build o = .ok r)
  (borders : ∀ t ∈ o.terms, (engines.compile t.pattern).FindsBorders)

include built borders

/-- What is found is found once, and position and term tell it apart. -/
theorem distinguished_collected {input : String}
    (hnone : r.terms.findSome? (failure? engines (r.pipeline.apply input.toList)) = none) :
    let found := (r.terms.flatMap (passed engines (r.pipeline.apply input.toList))).filter
      (r.whitelist.scan input.toList).allows
    found.Nodup ∧ Match.Distinguished found := by
  intro found
  have facts := builtFrom built
  obtain ⟨hnodup, hdistinguished⟩ := nodup_passed
    (facts.terms_eq ▸ Term.nodup_ids facts.valid) (facts.terms_eq ▸ borders) hnone
  refine ⟨hnodup.filter _, fun m hm m' hm' => ?_⟩
  exact hdistinguished m (List.mem_of_mem_filter hm) m' (List.mem_of_mem_filter hm')

/-- A scan that succeeds succeeds with the same matches in any order. -/
theorem collect_of_reorders (reorders : o.Reorders o') (built' : build o' = .ok r')
    {input : String} {sorted : List Match} (h : r.collect engines input true = .ok sorted) :
    r'.collect engines input true = .ok sorted := by
  have facts := builtFrom built
  have facts' := builtFrom built'
  have hpipeline : r'.pipeline = r.pipeline := by
    rw [facts.pipeline_eq, facts'.pipeline_eq, reorders.blacklistPipeline_eq]
  have hterms : r.terms.Perm r'.terms := by
    rw [facts.terms_eq, facts'.terms_eq]
    exact reorders.terms
  obtain ⟨hnone, rfl⟩ := collect_eq_ok_iff.mp h
  have hdistinguished := (distinguished_collected built borders hnone).2
  refine collect_eq_ok_iff.mpr ⟨?_, ?_⟩
  · rw [hpipeline]
    refine List.findSome?_eq_none_iff.mpr fun t ht => ?_
    exact List.findSome?_eq_none_iff.mp hnone t (hterms.mem_iff.mpr ht)
  · have hsame : (r.terms.flatMap (passed engines (r.pipeline.apply input.toList))).Perm
        (r'.terms.flatMap (passed engines (r.pipeline.apply input.toList))) :=
      hterms.flatMap fun _ _ => .refl _
    rw [hpipeline, ← allows_of_reorders reorders built built']
    exact (Match.sort_eq_of_perm (hsame.filter _) hdistinguished).symm

end Borders

end RegexMatcher

theorem Options.Reorders.symm (reorders : o.Reorders o') : o'.Reorders o where
  terms := reorders.terms.symm
  phrases phrase := (reorders.phrases phrase).symm
  blacklistPipeline_eq := reorders.blacklistPipeline_eq.symm
  whitelistPipeline_eq := reorders.whitelistPipeline_eq.symm
  limit_eq := reorders.limit_eq.symm

/-- Matchers for the same terms and phrases in another order give the same sorted matches, and these
increase strictly. The automata fail in the same way if they fail. Where the search for some term is
given up, there are no matches in either order, and the failure is that of the first term whose
search is given up, which asks for a boundary. All that is asked of a compiled expression is that
nothing it finds starts within a character. -/
theorem reordering_exact {a a' : Automaton} {r r' : RegexMatcher} (reorders : o.Reorders o')
    (builtAutomaton : Automaton.build o = .ok a) (builtAutomaton' : Automaton.build o' = .ok a')
    (builtRegex : RegexMatcher.build o = .ok r) (builtRegex' : RegexMatcher.build o' = .ok r')
    (wide : ∀ t ∈ o.terms, t.NeverEmpty) {engines : FallibleEngines}
    (borders : ∀ t ∈ o.terms, (engines.compile t.pattern).FindsBorders) (input : String) :
    let kept := o.blacklistPipeline.apply input.toList
    a.collect input true = a'.collect input true ∧
      (∀ sorted, a.collect input true = .ok sorted →
        sorted.Pairwise fun m m' => m.comparePositions m' = .lt) ∧
      (∀ sorted, r.collect engines input true = .ok sorted ↔
        r'.collect engines input true = .ok sorted) ∧
      (∀ sorted, r.collect engines input true = .ok sorted →
        sorted.Pairwise fun m m' => m.comparePositions m' = .lt) ∧
      (∀ e, r.collect engines input true = .error e ↔
        o.terms.findSome? (RegexMatcher.failure? engines kept) = some e) ∧
      (∀ e, r'.collect engines input true = .error e ↔
        o'.terms.findSome? (RegexMatcher.failure? engines kept) = some e) ∧
      ∀ t e, RegexMatcher.failure? engines kept t = some e →
        (t.pattern.startBoundary ∨ t.pattern.endBoundary) ∧
          ∃ reason, e = .regexScan t.id reason := by
  intro kept
  have facts := RegexMatcher.builtFrom builtRegex
  have facts' := RegexMatcher.builtFrom builtRegex'
  have borders' : ∀ t ∈ o'.terms, (engines.compile t.pattern).FindsBorders := fun t ht =>
    borders t (reorders.terms.mem_iff.mpr ht)
  rw [(a.collect_eq input).2, (a'.collect_eq input).2, Automaton.sortedMatches,
    Automaton.sortedMatches]
  refine ⟨?_, fun sorted hsorted => ?_, fun sorted => ?_, fun sorted hsorted => ?_, fun e => ?_,
    fun e => ?_, fun t e h =>
      ⟨RegexMatcher.bounded_of_failure? h, RegexMatcher.failure?_eq_some h⟩⟩
  · rcases Automaton.allMatches_of_reorders reorders builtAutomaton builtAutomaton' input with
      ⟨e, herror, herror'⟩ | ⟨found, found', hfound, hfound'⟩
    · rw [herror, herror']
    · have hperm :=
        Automaton.perm_of_reorders reorders builtAutomaton builtAutomaton' wide hfound hfound'
      rw [hfound, hfound']
      exact congrArg Except.ok (Match.sort_eq_of_perm hperm
        (Automaton.distinguished_of_allMatches builtAutomaton wide hfound))
  · cases hfound : a.allMatches input with
    | error e => rw [hfound] at hsorted; contradiction
    | ok found =>
      rw [hfound] at hsorted
      obtain rfl := Except.ok.inj hsorted
      exact Match.strict_sort (Automaton.nodup_of_allMatches builtAutomaton hfound)
        (Automaton.distinguished_of_allMatches builtAutomaton wide hfound)
  · constructor
    · exact RegexMatcher.collect_of_reorders builtRegex borders reorders builtRegex'
    · exact RegexMatcher.collect_of_reorders builtRegex' borders' reorders.symm builtRegex
  · obtain ⟨hnone, rfl⟩ := RegexMatcher.collect_eq_ok_iff.mp hsorted
    obtain ⟨hnodup, hdistinguished⟩ :=
      RegexMatcher.distinguished_collected builtRegex borders hnone
    exact Match.strict_sort hnodup hdistinguished
  · rw [RegexMatcher.collect_eq_error_iff, facts.terms_eq, facts.pipeline_eq]
  · rw [RegexMatcher.collect_eq_error_iff, facts'.terms_eq, facts'.pipeline_eq,
      ← reorders.blacklistPipeline_eq]

/-! A sample -/

/-- The sample with its terms turned around and its phrase given twice. -/
def turnedOptions : Options :=
  { Automaton.sampleOptions none with
    terms := (Automaton.sampleOptions none).terms.reverse, whitelist := ["xb", "xb"] }

/-- The automaton of the turned sample. -/
def turnedAutomaton : Automaton :=
  .ofVariants [⟨9, false, false, [.literal ['b']]⟩, ⟨7, true, false, [.literal ['a']]⟩,
      ⟨7, true, false, [.literal ['a'], .wildcard]⟩]
    (.ofWords [['x', 'b'], ['x', 'b']] .identity) turnedOptions.blacklistPipeline
    Automaton.defaultLimit

theorem build_turnedOptions : Automaton.build turnedOptions = .ok turnedAutomaton := by
  have hvariants : turnedOptions.terms.flatMap Variant.ofTerm = turnedAutomaton.variants := by
    simp only [turnedOptions, Automaton.sampleOptions, List.reverse_cons, List.reverse_nil,
      List.nil_append, List.cons_append, List.flatMap_cons, List.flatMap_nil, Variant.ofTerm_eq]
    rfl
  refine Automaton.build_eq_ok_iff.mpr ⟨rfl, _, rfl, ?_⟩
  rw [hvariants]
  rfl

theorem reorders_turnedOptions : (Automaton.sampleOptions none).Reorders turnedOptions where
  terms := (List.reverse_perm _).symm
  phrases phrase := by simp [turnedOptions, Automaton.sampleOptions]
  blacklistPipeline_eq := rfl
  whitelistPipeline_eq := rfl
  limit_eq := rfl

/-- The engine with lookaround gives every search for the first term up, the other one none. -/
def givingUp : FallibleEngines where
  plain := (Engines.ofTerms (Automaton.sampleOptions none).terms).plain
  lookaround _ := ⟨fun _ _ => .error "too many steps", nofun⟩

theorem reordering_exact_sample :
    let o := Automaton.sampleOptions none
    let input := "a-b xb b"
    let r : RegexMatcher := ⟨o.terms, .ofWords [['x', 'b']] .identity, o.blacklistPipeline⟩
    let r' : RegexMatcher :=
      ⟨turnedOptions.terms, .ofWords [['x', 'b'], ['x', 'b']] .identity, o.blacklistPipeline⟩
    let engines := (Engines.ofTerms o.terms).fallible
    o.Reorders turnedOptions ∧
      (Automaton.sampleAutomaton none).collect input true = turnedAutomaton.collect input true ∧
      (∃ sorted, r.collect engines input true = .ok sorted ∧
        r'.collect engines input true = .ok sorted ∧
        sorted.Pairwise fun m m' => m.comparePositions m' = .lt) ∧
      r.collect givingUp input true = .error (.regexScan 7 "too many steps") ∧
      ∃ e, r'.collect givingUp input true = .error e := by
  intro o input r r' engines
  have leftmost : ∀ t ∈ o.terms,
      ((Engines.ofTerms o.terms).compile t.pattern).FindsLeftmost t.pattern := fun t ht =>
    Engines.follow_iff.mp (Engines.follow_ofTerms (by decide) t ht)
  have borders : ∀ t ∈ o.terms, (engines.compile t.pattern).FindsBorders := by
    intro t ht
    rw [RegexMatcher.compile_fallible]
    exact (leftmost t ht).findsBorders
  have builtRegex : RegexMatcher.build o = .ok r := rfl
  have builtRegex' : RegexMatcher.build turnedOptions = .ok r' := rfl
  obtain ⟨hsame, -, hok, hstrict, -⟩ := reordering_exact reorders_turnedOptions
    (Automaton.build_sampleOptions none) build_turnedOptions builtRegex builtRegex'
    (Automaton.neverEmpty_sampleOptions none) borders input
  have hcollect := (r.collect_fallible (Engines.ofTerms o.terms) input).2
  have bordersGivingUp : ∀ t ∈ o.terms, (givingUp.compile t.pattern).FindsBorders := by
    intro t ht
    have hleftmost := leftmost t ht
    rw [Engines.compile] at hleftmost
    rw [FallibleEngines.compile]
    split_ifs at hleftmost ⊢
    · intro text pos range _ hfound
      cases hfound
    · exact hleftmost.findsBorders
  obtain ⟨-, -, hok', -, herror, -⟩ := reordering_exact reorders_turnedOptions
    (Automaton.build_sampleOptions none) build_turnedOptions builtRegex builtRegex'
    (Automaton.neverEmpty_sampleOptions none) bordersGivingUp input
  have hfails : r.collect givingUp input true = .error (.regexScan 7 "too many steps") := by
    have htext : 0 < byteLength ((o.blacklistPipeline.apply input.toList).map Mapped.char) := by
      decide
    exact (herror _).mpr (List.findSome?_eq_some_iff.mpr
      ⟨[], _, _, rfl, RegexMatcher.failure?_of_error htext rfl, List.forall_mem_nil _⟩)
  refine ⟨reorders_turnedOptions, hsame, ⟨_, hcollect, (hok _).mp hcollect, hstrict _ hcollect⟩,
    hfails, ?_⟩
  cases hcollect' : r'.collect givingUp input true with
  | error e => exact ⟨e, rfl⟩
  | ok sorted =>
    have hsorted := (hok' sorted).mpr hcollect'
    rw [hfails] at hsorted
    cases hsorted

end TermScan
