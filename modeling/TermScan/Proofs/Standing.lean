import TermScan.Proofs.Regex.Agreement

/-!
# What stands where a match says

Boundaries aside, a match of either matcher says that an expansion of its term stands at certain
kept characters. Its bytes tell which ones, so matches with the same bytes have the same length.
-/
namespace TermScan

namespace Term

/-- The term, asking for no boundary. -/
def unbounded (t : Term) : Term := ⟨t.id, ⟨false, false, t.pattern.nodes⟩⟩

/-- The boundaries that the term asks for are there, next to these characters if any. -/
def Bounded (t : Term) (before after : Option Char) : Prop :=
  (t.pattern.startBoundary → ¬before.any isWordChar) ∧
    (t.pattern.endBoundary → ¬after.any isWordChar)

/-- Some expansion of some term stands where a match says, whatever is next to it. -/
def Stands (terms : List Term) (text : List Char) (kept : List Mapped) (m : Match) : Prop :=
  ∃ t ∈ terms, ∃ e i j, t.unbounded.OccursAt e text kept i j m

variable {t t' : Term} {e e' : Expansion} {text : List Char} {kept : List Mapped}
  {i j i' j' : Nat} {m m' : Match} {p : Pipeline}

/-- A term occurs where it stands and the text shows its boundaries. -/
theorem occursAt_iff_bounded : t.OccursAt e text kept i j m ↔
    t.unbounded.OccursAt e text kept i j m ∧
      t.Bounded (charBefore? text m.first) (charAfter? text m.last) := by
  constructor
  · intro h
    refine ⟨⟨h.expands, h.first_le_last, h.width_eq, h.fits, h.termId_eq, h.length_eq, h.first_eq,
      h.last_eq, ?_, ?_⟩, h.opens, h.closes⟩
    · simp [unbounded]
    · simp [unbounded]
  · intro ⟨h, hopens, hcloses⟩
    exact ⟨h.expands, h.first_le_last, h.width_eq, h.fits, h.termId_eq, h.length_eq, h.first_eq,
      h.last_eq, hopens, hcloses⟩

/-- A term stands where an expansion matches position by position. -/
theorem exists_unbounded_iff (he : e ∈ expand t.pattern.nodes) (wide : 0 < e.width) :
    (∃ j, t.unbounded.OccursAt e text (p.apply text) i j m) ↔
      e.Heads (((p.apply text).map Mapped.char).drop i) ∧
        RegexMatcher.match? .empty t.id ((p.apply text).drop i) e.width = some m := by
  have sees : t.unbounded.SeesBoundaries (p.apply text) :=
    seesBoundaries (.inr (by simp [unbounded])) text
  have hmem : e ∈ expand t.unbounded.pattern.nodes := he
  rw [exists_occursAt_iff hmem wide sees]
  simp [unbounded]

theorem OccursAt.indices_eq (h : t.OccursAt e text (p.apply text) i j m)
    (h' : t'.OccursAt e' text (p.apply text) i' j' m') (hfirst : m.first = m'.first)
    (hlast : m.last = m'.last) : i = i' ∧ j = j' := by
  obtain ⟨hi, hstart⟩ := h.getElem_first
  obtain ⟨hi', hstart'⟩ := h'.getElem_first
  obtain ⟨hj, hend⟩ := h.getElem_last
  obtain ⟨hj', hend'⟩ := h'.getElem_last
  exact ⟨Pipeline.eq_of_first_eq hi hi' (by rw [hstart, hstart', hfirst]),
    Pipeline.eq_of_last_eq hj hj' (by rw [hend, hend', hlast])⟩

/-- A match leads back to the term that stands there and to its indices. -/
theorem exists_standing_iff {terms : List Term} (hids : (terms.map Term.id).Nodup) (ht : t ∈ terms)
    (h : t.unbounded.OccursAt e text (p.apply text) i j m) {view : Term → Nat → Nat → Prop} :
    (∃ t ∈ terms, ∃ e i j, t.unbounded.OccursAt e text (p.apply text) i j m ∧ view t i j) ↔
      view t i j := by
  constructor
  · rintro ⟨t', ht', e', i', j', h', hview⟩
    obtain rfl : t' = t :=
      List.inj_on_of_nodup_map hids ht' ht (h'.termId_eq.symm.trans h.termId_eq)
    obtain ⟨rfl, rfl⟩ := h'.indices_eq h rfl rfl
    exact hview
  · intro hview
    exact ⟨t, ht, e, i, j, h, hview⟩

/-- Position and term tell apart what stands in a text. -/
theorem distinguished_of_stands {terms : List Term} {found : List Match}
    (h : ∀ m ∈ found, Stands terms text (p.apply text) m) : Match.Distinguished found := by
  intro m hm m' hm' hfirst hlast hid
  obtain ⟨t, -, e, i, j, hstands⟩ := h m hm
  obtain ⟨t', -, e', i', j', hstands'⟩ := h m' hm'
  obtain ⟨rfl, rfl⟩ := hstands.indices_eq hstands' hfirst hlast
  have hlength : m.length = m'.length := by
    rw [hstands.length_eq, hstands'.length_eq, ← hstands.width_eq, ← hstands'.width_eq]
  cases m
  cases m'
  simp_all

end Term

variable {o : Options}

/-- What a scan finds stands in the text, also if the scan fails in the end. -/
theorem Automaton.stands_of_mem_scan {a : Automaton} (built : build o = .ok a)
    (wide : ∀ t ∈ o.terms, t.NeverEmpty) {input : String} {m : Match} (h : m ∈ (a.scan input).1) :
    Term.Stands o.terms input.toList (o.blacklistPipeline.apply input.toList) m := by
  have facts := builtFrom built
  have hfound {n : Nat} (hn : n ≤ (a.pipeline.apply input.toList).length)
      (h : m ∈ (List.range n).flatMap
        (a.foundAt (a.pipeline.apply input.toList) (a.whitelist.scan input.toList))) :
      Term.Stands o.terms input.toList (o.blacklistPipeline.apply input.toList) m := by
    obtain ⟨⟨t, ht, e, i, j, -, hoccurs⟩, -⟩ := (mem_found_iff built wide hn).mp h
    rw [← facts.pipeline_eq]
    exact ⟨t, ht, e, i, j, (Term.occursAt_iff_bounded.mp hoccurs).1⟩
  rw [scan] at h
  rcases a.loadAt_cases (a.pipeline.apply input.toList) with hload | ⟨n, hn, hexceeds, hload⟩
  · rw [a.scanFrom_of_le _ facts.sound input _ hload] at h
    exact hfound (Nat.le_refl _) h
  · rw [a.scanFrom_of_lt facts.sound input _ hn hload hexceeds] at h
    exact hfound hn.le h

namespace RegexMatcher

theorem stands_of_mem_termMatches {t : Term} (wide : t.NeverEmpty) {p : Pipeline}
    {text : List Char} {whitelisted : IntervalSet} {m : Match}
    (h : m ∈ termMatches whitelisted (p.apply text) t) :
    ∃ e i j, t.unbounded.OccursAt e text (p.apply text) i j m := by
  rw [termMatches_eq] at h
  obtain ⟨i, -, hmatch⟩ := List.mem_filterMap.mp h
  obtain ⟨n, hlength, hmatch⟩ := Option.bind_eq_some_iff.mp hmatch
  obtain ⟨e, he, rfl, hheads, -⟩ := Pattern.reaches_of_matchLength? hlength
  rw [match?_eq_filter, Option.filter_eq_some_iff] at hmatch
  obtain ⟨j, hstands⟩ := (Term.exists_unbounded_iff he (wide e he)).mpr ⟨hheads, hmatch.1⟩
  exact ⟨e, i, j, hstands⟩

/-- What leftmost searches find stands in the text. -/
theorem stands_of_mem_searchMatches {r : RegexMatcher} (built : build o = .ok r)
    (wide : ∀ t ∈ o.terms, t.NeverEmpty) {engines : Engines}
    (leftmost : ∀ t ∈ o.terms, (engines.compile t.pattern).FindsLeftmost t.pattern)
    {input : String} {m : Match} (h : m ∈ r.searchMatches engines input) :
    Term.Stands o.terms input.toList (o.blacklistPipeline.apply input.toList) m := by
  have facts := builtFrom built
  rw [r.searchMatches_eq (facts.terms_eq ▸ leftmost)
    (facts.terms_eq ▸ fun t ht => Pattern.matchesSome (wide t ht)), allMatches, facts.terms_eq,
    facts.pipeline_eq, List.mem_flatMap] at h
  obtain ⟨t, ht, hm⟩ := h
  exact ⟨t, ht, stands_of_mem_termMatches (wide t ht) hm⟩

end RegexMatcher

end TermScan
