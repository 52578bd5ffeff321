import TermScan.Proofs.Automaton.Cursor
import TermScan.Proofs.Regex.Optionals
import TermScan.Proofs.Standing
import TermScan.Proofs.Transform.Runs

/-!
# The text of a match

A run of a pipeline can be cut right before a character that it keeps and right behind another one.
So the bytes of a match are those of whole characters, and transformers that remember nothing make
of these characters what they have made of them in the whole text: an expansion of the term.
-/
namespace TermScan

/-- The characters between two borders are sliced out. -/
theorem slice?_append {a part b : List Char} {last : Nat}
    (h : byteLength (a ++ part) = last + 1) :
    slice? (a ++ part ++ b) (byteLength a) last = some part := by
  rw [byteLength_append] at h
  have hsize : last + 1 - byteLength a = byteLength part := by omega
  rw [slice?, if_pos (by omega), List.append_assoc, dropBytes?_append, Option.bind_some, hsize,
    takeBytes?_append]

/-- Where a term stands, a part of the text does, and transformers without memory make the same of
this part on its own. -/
theorem Term.OccursAt.exists_part {t : Term} {e : Expansion} {text : List Char} {p : Pipeline}
    {i j : Nat} {m : Match} (h : t.OccursAt e text (p.apply text) i j m) :
    ∃ a part b, text = a ++ part ++ b ∧ byteLength a = m.first ∧
      byteLength (a ++ part) = m.last + 1 ∧ m.length ≤ part.length ∧
      (p.IsStateless → p.chars part = between (p.apply text) i (j + 1)) := by
  obtain ⟨first, hatFirst, hfirst⟩ := Option.map_eq_some_iff.mp h.first_eq
  obtain ⟨last, hatLast, hlast⟩ := Option.map_eq_some_iff.mp h.last_eq
  have hle := h.first_le_last
  have hj := h.lt_length
  rw [p.apply_eq] at hatFirst hatLast
  obtain ⟨xs, part, ys, hsites, hhead, hgetLast, hkept⟩ := Run.exists_part hle hatFirst hatLast
  obtain ⟨hbefore, hbehind⟩ := borders_of_sites_eq hsites hhead hgetLast
  rw [← p.apply_eq] at hkept
  refine ⟨xs.map Site.char, part.map Site.char, ys.map Site.char, ?_, hbefore.trans hfirst,
    by rw [hbehind, hlast], ?_, fun stateless => ?_⟩
  · rw [chars_of_sites_eq hsites, List.map_append, List.map_append]
  · have hlength := (p.start.readSites xs).2.length_readSites_le part
    rw [hkept, List.length_drop, List.length_take] at hlength
    rw [List.length_map, h.length_eq, ← h.width_eq]
    omega
  · have fixed := Run.isFixed_start stateless
    rw [(fixed.readSites_eq xs).2] at hkept
    rw [Pipeline.chars, p.apply_eq, (fixed.readSites_eq _).1, map_char_sites, between, ← hkept,
      (fixed.readSites_eq part).1]

/-- Whatever either matcher reports lies between two borders of the text, and the text there has at
least as many characters as were matched. If no transformer remembers what it has read, this text on
its own is transformed to as many characters as were matched, and they are an expansion of the term
position by position. All that is asked of a compiled expression is that it does what its tokens
say. -/
theorem slices_exact {o : Options} {a : Automaton} {r : RegexMatcher}
    (builtAutomaton : Automaton.build o = .ok a) (builtRegex : RegexMatcher.build o = .ok r)
    (wide : ∀ t ∈ o.terms, t.NeverEmpty) {engines : Engines}
    (follow : ∀ t ∈ o.terms, engines.Follow t.pattern)
    {input : String} {m : Match}
    (reported : m ∈ (a.scan input).1 ∨ m ∈ r.searchMatches engines input) :
    let text := input.toList
    let p := o.blacklistPipeline
    m.first ≤ m.last ∧ m.last < byteLength text ∧
      IsBorder text m.first ∧ IsBorder text (m.last + 1) ∧
      ∃ part, m.text? text = some part ∧ 1 ≤ m.length ∧ m.length ≤ part.length ∧
        (p.IsStateless → (p.chars part).length = m.length ∧
          ∃ t ∈ o.terms, t.id = m.termId ∧ ∃ e ∈ expand t.pattern.nodes,
            e.width = m.length ∧ fits e.symbols (p.chars part)) := by
  intro text p
  have leftmost := fun t ht => Engines.follow_iff.mp (follow t ht)
  obtain ⟨t, ht, e, i, j, hstands⟩ : Term.Stands o.terms text (p.apply text) m :=
    reported.elim (Automaton.stands_of_mem_scan builtAutomaton wide)
      (RegexMatcher.stands_of_mem_searchMatches builtRegex wide leftmost)
  obtain ⟨a, part, b, htext, hfirst, hlast, hlength, hchars⟩ := hstands.exists_part
  have hexpands : e ∈ expand t.pattern.nodes := hstands.expands
  have hwidth : m.length = e.width := hstands.length_eq
  have hpos := wide t ht e hexpands
  have hpart : 0 < byteLength part := by
    cases part with
    | nil => rw [List.length_nil] at hlength; omega
    | cons c part => have := c.utf8Size_pos; rw [byteLength_cons]; omega
  have hsize : byteLength text = byteLength (a ++ part) + byteLength b := by
    rw [htext, byteLength_append]
  have hend := hlast
  rw [byteLength_append] at hend
  refine ⟨by omega, by omega, ⟨a, part ++ b, by simp [htext], hfirst⟩,
    ⟨a ++ part, b, htext, hlast⟩, part, ?_, by omega, hlength, fun stateless => ?_⟩
  · rw [Match.text?, htext, ← hfirst, slice?_append hlast]
  · have hj := hstands.lt_length
    have hspan := hstands.width_eq
    have hle := hstands.first_le_last
    rw [hchars stateless, length_between _ hj]
    exact ⟨by omega, t, ht, hstands.termId_eq.symm, e, hexpands, hwidth.symm, hstands.fits⟩

/-- A dropped character and one of two bytes lie between the ends of the match. -/
theorem slices_exact_sample :
    let o := Automaton.sampleOptions none
    let m : Match := ⟨7, 2, 3, 6⟩
    let text := "é a-é".toList
    m ∈ ((Automaton.sampleAutomaton none).scan "é a-é").1 ∧ o.blacklistPipeline.IsStateless ∧
      m.first ≤ m.last ∧ m.last < byteLength text ∧
      IsBorder text m.first ∧ IsBorder text (m.last + 1) ∧
      ∃ part, m.text? text = some part ∧ 1 ≤ m.length ∧ m.length ≤ part.length ∧
        (o.blacklistPipeline.chars part).length = m.length ∧
        ∃ t ∈ o.terms, t.id = m.termId ∧ ∃ e ∈ expand t.pattern.nodes,
          e.width = m.length ∧ fits e.symbols (o.blacklistPipeline.chars part) := by
  intro o m text
  have hscan : m ∈ ((Automaton.sampleAutomaton none).scan "é a-é").1 := by decide +kernel
  have stateless : o.blacklistPipeline.IsStateless := by
    simp [o, Automaton.sampleOptions, Pipeline.IsStateless, Transformer.isStateless]
  have follow : ∀ t ∈ o.terms, (Engines.ofTerms o.terms).Follow t.pattern :=
    Engines.follow_ofTerms (by decide)
  have builtRegex : RegexMatcher.build o = .ok
      ⟨o.terms, .ofWords [['x', 'b']] .identity, o.blacklistPipeline⟩ := rfl
  obtain ⟨hle, hlt, hfirst, hlast, part, htext, hpos, hlength, hstateless⟩ :=
    slices_exact (Automaton.build_sampleOptions none) builtRegex
      (Automaton.neverEmpty_sampleOptions none) follow (.inl hscan)
  exact ⟨hscan, stateless, hle, hlt, hfirst, hlast, part, htext, hpos, hlength,
    hstateless stateless⟩

end TermScan
