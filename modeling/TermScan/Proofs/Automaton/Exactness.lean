import TermScan.Proofs.Automaton.Scan
import TermScan.Proofs.Interval.Containment
import TermScan.Proofs.Places

/-!
# A scan finds every occurrence

A match is reported at the index of its last character. There the variants that the trie ends at
and the variants whose walks are completed are, taken together, the variants that stand in the
text up to this index.
-/
namespace TermScan

/-! Standing in a text -/

/-- A variant stands at the characters kept from index `i` to index `j`. -/
def Variant.StandsAt (v : Variant) (kept : List Mapped) (i j : Nat) : Prop :=
  i + v.width = j + 1 ∧ fits v.atoms.symbols (between kept i (j + 1))

/-- What a match of a variant between two places looks like. -/
def Variant.matchAt (v : Variant) (first last : Site) : Match :=
  ⟨v.termId, v.width, first.span.first, last.span.last⟩

section Standing

variable {kept : List Mapped} {v : Variant}

/-- What is kept from an index on fits if the lead ends there and the tail fits behind it. -/
theorem fits_between_iff {i k : Nat} (hi : i + v.atoms.lead.length ≤ k) (hk : k ≤ kept.length) :
    fits v.atoms.symbols (between kept i k) ↔
      v.atoms.lead <:+ between kept 0 (i + v.atoms.lead.length) ∧
        fits v.atoms.tail.symbols (between kept (i + v.atoms.lead.length) k) := by
  have hlead : (between kept i (i + v.atoms.lead.length)).length = v.atoms.lead.length := by
    rw [length_between kept (by omega)]
    omega
  rw [← between_append kept (Nat.le_add_right i v.atoms.lead.length) hi, Expansion.symbols_eq,
    fits_append (by rw [hlead, List.length_map]), fits_literal hlead, Bool.and_eq_true, beq_iff_eq,
    suffix_between_iff kept (by omega), Nat.add_sub_cancel]
  simp

end Standing

namespace Automaton

variable {a : Automaton} {kept : List Mapped}

/-- No variant has an empty literal or nothing to match. -/
def Wide (a : Automaton) : Prop := ∀ v ∈ a.variants, v.atoms.Filled ∧ 0 < v.width

theorem mem_spawned_iff {s : Nat} {w : Walk} :
    w ∈ a.spawned kept s ↔ ∃ v ∈ a.variants, v.atoms.tail ≠ [] ∧
      v.atoms.lead <:+ between kept 0 s ∧ opens kept v (s - v.atoms.lead.length) ∧
        w = ⟨v, v.atoms.tail⟩ := by
  simp only [spawned, List.mem_map, List.mem_filter, Variant.mem_withLeadIn, Variant.isLiteral]
  constructor
  · rintro ⟨v, ⟨⟨⟨hv, hforks⟩, hlead⟩, hopens⟩, rfl⟩
    exact ⟨v, hv, by simpa using hforks, hlead, hopens, rfl⟩
  · rintro ⟨v, hv, hforks, hlead, hopens, rfl⟩
    exact ⟨v, ⟨⟨⟨hv, by simpa using hforks⟩, hlead⟩, hopens⟩, rfl⟩

/-- The walks completed are those of the variants with wildcards that stand in the text. -/
theorem mem_completedAt_iff (wide : a.Wide) {k : Nat} (hk : k < kept.length) {v : Variant} :
    v ∈ a.completedAt kept k ↔ v ∈ a.variants ∧ v.atoms.tail ≠ [] ∧
      ∃ i, v.StandsAt kept i k ∧ opens kept v i := by
  have hwidth := v.width_eq
  simp only [completedAt, List.mem_flatMap, List.mem_range, List.mem_filterMap, mem_spawned_iff,
    Walk.completed?]
  constructor
  · rintro ⟨s, hs, w, ⟨v', hv, hforks, hlead, hopens, rfl⟩, hcompleted⟩
    obtain ⟨hcomplete, rfl⟩ : _ ∧ v' = v := Option.ite_some_none_eq_some.mp hcompleted
    obtain ⟨hfits, hlength⟩ :=
      (Expansion.follow_eq_complete_iff (wide v' hv).1.tail hforks _).mp hcomplete
    have hle := ((suffix_between_iff kept (by omega) _).mp hlead).1
    rw [length_between kept (by omega)] at hlength
    refine ⟨hv, hforks, s - v'.atoms.lead.length, ⟨by omega, ?_⟩, hopens⟩
    rw [fits_between_iff (by omega) (by omega), Nat.sub_add_cancel hle]
    exact ⟨hlead, hfits⟩
  · rintro ⟨hv, hforks, i, ⟨hlast, hfits⟩, hopens⟩
    have htail := Expansion.width_tail_pos hforks
    obtain ⟨hlead, hfits⟩ := (fits_between_iff (by omega) (by omega)).mp hfits
    refine ⟨i + v.atoms.lead.length, by omega, _, ⟨v, hv, hforks, hlead, ?_, rfl⟩, ?_⟩
    · rwa [Nat.add_sub_cancel]
    · have hcomplete := (Expansion.follow_eq_complete_iff (wide v hv).1.tail hforks _).mpr
        ⟨hfits, by rw [length_between kept (by omega)]; omega⟩
      simp only [hcomplete, if_true]

/-- The variants found at an index are those that stand in the text up to it. -/
theorem mem_variantsAt_iff (wide : a.Wide) {k : Nat} (hk : k < kept.length) {v : Variant} :
    v ∈ a.variantsAt kept k ↔ v ∈ a.variants ∧
      ∃ i, v.StandsAt kept i k ∧ (v.atoms.tail ≠ [] → opens kept v i) := by
  have hwidth := v.width_eq
  rw [variantsAt, List.mem_append, mem_completedAt_iff wide hk, Variant.mem_withLeadIn,
    List.mem_filter, Variant.isLiteral_iff]
  by_cases hforks : v.atoms.tail = []
  · have hzero : v.atoms.tail.width = 0 := by rw [hforks]; rfl
    have hstands (i : Nat) (hi : i + v.width = k + 1) : v.StandsAt kept i k ↔
        v.atoms.lead <:+ between kept 0 (k + 1) := by
      have hlast : i + v.atoms.lead.length = k + 1 := by omega
      rw [Variant.StandsAt, fits_between_iff (by omega) (by omega), hlast]
      simp [hi]
    constructor
    · rintro (⟨-, hne, -⟩ | ⟨⟨hv, -⟩, hlead⟩)
      · contradiction
      · have hle := ((suffix_between_iff kept hk _).mp hlead).1
        refine ⟨hv, k + 1 - v.width, (hstands _ (by omega)).mpr hlead, fun hne => ?_⟩
        contradiction
    · rintro ⟨hv, i, hi, -⟩
      exact .inr ⟨⟨hv, hforks⟩, (hstands i hi.1).mp hi⟩
  · simp [hforks]

/-! Reports -/

theorem match?_eq_some_iff {whitelisted : IntervalSet} {recent : Ring Site} {first last : Site}
    {v : Variant} {m : Match} (hfirst : firstOf? recent v.width = some first) :
    match? whitelisted recent last v = some m ↔
      (v.startBoundary → first.opensBoundary) ∧ (v.endBoundary → last.closesBoundary) ∧
        ¬whitelisted.anyContains ⟨first.span.first, last.span.last⟩ ∧ v.matchAt first last = m := by
  rw [match?, matchOf?, hfirst, Variant.matchAt]
  dsimp only
  split_ifs with hstart hend hexcused
  · simp only [Bool.and_eq_true, Bool.not_eq_true'] at hstart
    simp [hstart]
  · simp only [Bool.and_eq_true, Bool.not_eq_true'] at hend
    simp [hend]
  · simp [hexcused]
  · simp only [Bool.and_eq_true, Bool.not_eq_true', not_and, Bool.not_eq_false] at hstart hend
    simp only [Option.some.injEq, hexcused]
    tauto

/-- The variants that are found at an index and matched there: those that stand in the text up to
it, unless a boundary is missing or they are excused. -/
theorem variant_found_iff (sound : a.Sound) (wide : a.Wide) (whitelisted : IntervalSet) {k : Nat}
    (hk : k < kept.length) {v : Variant} {m : Match} :
    v ∈ a.variantsAt kept k ∧
        match? whitelisted (a.recentAt kept (k + 1)) kept[k].site v = some m ↔
      v ∈ a.variants ∧ ∃ i, ∃ hi : i < kept.length,
        v.StandsAt kept i k ∧ (v.startBoundary → kept[i].site.opensBoundary) ∧
          (v.endBoundary → kept[k].site.closesBoundary) ∧
          ¬whitelisted.anyContains ⟨kept[i].site.span.first, kept[k].site.span.last⟩ ∧
          v.matchAt kept[i].site kept[k].site = m := by
  have hfirst (hv : v ∈ a.variants) {i : Nat} (hstands : v.StandsAt kept i k)
      (hi : i < kept.length) :
      firstOf? (a.recentAt kept (k + 1)) v.width = some kept[i].site := by
    have hpos := (wide v hv).2
    have hlongest := sound.width_le v hv
    have hlast := hstands.1
    rw [firstOf?_eq hpos, a.get?_recentAt (by omega) (by omega) (by omega),
      show k + 1 - 1 - (v.width - 1) = i by omega, List.getElem?_eq_getElem hi, Option.map_some]
  have hopens {i : Nat} (hi : i < kept.length)
      (h : v.startBoundary → kept[i].site.opensBoundary) : opens kept v i := by
    rw [opens, List.getElem?_eq_getElem hi]
    cases hstart : v.startBoundary <;> simp_all
  rw [mem_variantsAt_iff wide hk]
  constructor
  · rintro ⟨⟨hv, i, hstands, -⟩, hmatch⟩
    have hi : i < kept.length := by
      have := hstands.1
      have := (wide v hv).2
      omega
    exact ⟨hv, i, hi, hstands, (match?_eq_some_iff (hfirst hv hstands hi)).mp hmatch⟩
  · rintro ⟨hv, i, hi, hstands, hmatch⟩
    exact ⟨⟨hv, i, hstands, fun _ => hopens hi hmatch.1⟩,
      (match?_eq_some_iff (hfirst hv hstands hi)).mpr hmatch⟩

/-- What is reported at an index: the variants that stand in the text up to it, unless a boundary
is missing or they are excused. -/
theorem mem_foundAt_iff (sound : a.Sound) (wide : a.Wide) (whitelisted : IntervalSet) {k : Nat}
    (hk : k < kept.length) {m : Match} :
    m ∈ a.foundAt kept whitelisted k ↔ ∃ v ∈ a.variants, ∃ i, ∃ hi : i < kept.length,
      v.StandsAt kept i k ∧ (v.startBoundary → kept[i].site.opensBoundary) ∧
        (v.endBoundary → kept[k].site.closesBoundary) ∧
        ¬whitelisted.anyContains ⟨kept[i].site.span.first, kept[k].site.span.last⟩ ∧
        v.matchAt kept[i].site kept[k].site = m := by
  rw [foundAt, List.getElem?_eq_getElem hk]
  simp only [List.mem_eraseDups, List.mem_filterMap, variant_found_iff sound wide whitelisted hk]

end Automaton

/-! Occurrences -/

/-- No choice of optionals leaves nothing to match. -/
def Term.NeverEmpty (t : Term) : Prop := ∀ e ∈ expand t.pattern.nodes, 0 < e.width

/-- A match says that an expansion of a term stands at the characters kept from index `i` to index
`j` of a text, with the boundaries that the term asks for around it in the text. -/
structure Term.OccursAt (t : Term) (e : Expansion) (text : List Char) (kept : List Mapped)
    (i j : Nat) (m : Match) : Prop where
  expands : e ∈ expand t.pattern.nodes
  first_le_last : i ≤ j
  width_eq : j - i + 1 = e.width
  /-- A wildcard fits every character, a literal one itself. -/
  fits : fits e.symbols (between kept i (j + 1))
  termId_eq : m.termId = t.id
  length_eq : m.length = e.width
  first_eq : kept[i]?.map (·.site.span.first) = some m.first
  last_eq : kept[j]?.map (·.site.span.last) = some m.last
  opens : t.pattern.startBoundary → ¬(charBefore? text m.first).any isWordChar
  closes : t.pattern.endBoundary → ¬(charAfter? text m.last).any isWordChar

theorem Term.OccursAt.lt_length {t : Term} {e : Expansion} {text : List Char} {kept : List Mapped}
    {i j : Nat} {m : Match} (h : t.OccursAt e text kept i j m) : j < kept.length := by
  by_contra hj
  have hlast := h.last_eq
  rw [List.getElem?_eq_none (Nat.not_lt.mp hj)] at hlast
  contradiction

theorem Term.OccursAt.getElem_first {t : Term} {e : Expansion} {text : List Char}
    {kept : List Mapped} {i j : Nat} {m : Match} (h : t.OccursAt e text kept i j m) :
    ∃ hi : i < kept.length, kept[i].site.span.first = m.first := by
  have hi := h.first_le_last.trans_lt h.lt_length
  have hfirst := h.first_eq
  rw [List.getElem?_eq_getElem hi, Option.map_some, Option.some.injEq] at hfirst
  exact ⟨hi, hfirst⟩

theorem Term.OccursAt.getElem_last {t : Term} {e : Expansion} {text : List Char}
    {kept : List Mapped} {i j : Nat} {m : Match} (h : t.OccursAt e text kept i j m) :
    ∃ hj : j < kept.length, kept[j].site.span.last = m.last := by
  have hlast := h.last_eq
  rw [List.getElem?_eq_getElem h.lt_length, Option.map_some, Option.some.injEq] at hlast
  exact ⟨h.lt_length, hlast⟩

/-- Some expansion of some term occurs where a match says, up to the character kept before index
`n`. -/
def Term.OccursBefore (terms : List Term) (text : List Char) (kept : List Mapped) (n : Nat)
    (m : Match) : Prop :=
  ∃ t ∈ terms, ∃ e i j, j < n ∧ t.OccursAt e text kept i j m

/-- Nothing occurs beyond the characters kept. -/
theorem Term.occursBefore_length_iff {terms : List Term} {text : List Char} {kept : List Mapped}
    {m : Match} : OccursBefore terms text kept kept.length m ↔
      ∃ t ∈ terms, ∃ e i j, t.OccursAt e text kept i j m := by
  constructor
  · rintro ⟨t, ht, e, i, j, -, hoccurs⟩
    exact ⟨t, ht, e, i, j, hoccurs⟩
  · rintro ⟨t, ht, e, i, j, hoccurs⟩
    exact ⟨t, ht, e, i, j, hoccurs.lt_length, hoccurs⟩

theorem opensBoundary_iff {text : List Char} {s : Site} (h : s ∈ sites text) :
    s.opensBoundary ↔ ¬(charBefore? text s.span.first).any isWordChar := by
  simp [← site_before h, Site.opensBoundary]

theorem closesBoundary_iff {text : List Char} {s : Site} (h : s ∈ sites text) :
    s.closesBoundary ↔ ¬(charAfter? text s.span.last).any isWordChar := by
  simp [← site_after h, Site.closesBoundary]

/-- The variants of terms stand where their expansions occur. -/
theorem occursAt_iff {t : Term} {e : Expansion} (he : e ∈ expand t.pattern.nodes)
    (hwide : 0 < e.width) {p : Pipeline} {text : List Char} {i j : Nat}
    (hi : i < (p.apply text).length) (hj : j < (p.apply text).length) {m : Match} :
    t.OccursAt e text (p.apply text) i j m ↔
      (Variant.ofExpansion t e).StandsAt (p.apply text) i j ∧
        (t.pattern.startBoundary → (p.apply text)[i].site.opensBoundary) ∧
        (t.pattern.endBoundary → (p.apply text)[j].site.closesBoundary) ∧
        (Variant.ofExpansion t e).matchAt (p.apply text)[i].site (p.apply text)[j].site = m := by
  have hfirst := Pipeline.site_mem_sites hi
  have hlast := Pipeline.site_mem_sites hj
  have hwidth : (Variant.ofExpansion t e).width = e.width := rfl
  rw [opensBoundary_iff hfirst, closesBoundary_iff hlast]
  constructor
  · intro h
    have hle := h.first_le_last
    have hspan := h.width_eq
    obtain ⟨id, length, first, last⟩ := m
    obtain rfl : id = t.id := h.termId_eq
    obtain rfl : length = e.width := h.length_eq
    obtain rfl : (p.apply text)[i].site.span.first = first := by
      simpa [List.getElem?_eq_getElem hi] using h.first_eq
    obtain rfl : (p.apply text)[j].site.span.last = last := by
      simpa [List.getElem?_eq_getElem hj] using h.last_eq
    exact ⟨⟨by omega, h.fits⟩, h.opens, h.closes, rfl⟩
  · rintro ⟨⟨hspan, hfits⟩, hopens, hcloses, rfl⟩
    exact ⟨he, by omega, by omega, hfits, rfl, rfl, by rw [List.getElem?_eq_getElem hi]; rfl,
      by rw [List.getElem?_eq_getElem hj]; rfl, hopens, hcloses⟩

theorem Whitelist.sound_scan (w : Whitelist) (text : List Char) :
    (w.scan text).Sound := by
  have run (kept : List Mapped) (s : Whitelist.State) (h : s.found.Sound) :
      (kept.foldl w.step s).found.Sound := by
    induction kept generalizing s with
    | nil => exact h
    | cons m kept ih => exact ih _ (IntervalSet.insertAll_spec h _).1
  rw [Whitelist.scan]
  split
  · exact IntervalSet.sound_empty
  · exact run _ _ IntervalSet.sound_empty

theorem Whitelist.not_anyContains_scan_iff (w : Whitelist) (text : List Char) (query : Interval) :
    ¬(w.scan text).anyContains query ↔ ∀ span ∈ (w.scan text).toList, ¬span.contains query := by
  rw [IntervalSet.anyContains_iff (sound_scan w text)]
  simp

namespace Automaton

variable {o : Options} {a : Automaton}

theorem wide_of_build (built : build o = .ok a) (wide : ∀ t ∈ o.terms, t.NeverEmpty) : a.Wide := by
  intro v hv
  rw [(builtFrom built).variants_eq, Variant.mem_ofTerms_iff] at hv
  obtain ⟨t, ht, e, he, rfl⟩ := hv
  exact ⟨filled_of_mem_expand he, wide t ht e he⟩

/-- What is found before an index: the occurrences up to it that no whitelisted span contains. -/
theorem mem_found_iff (built : build o = .ok a) (wide : ∀ t ∈ o.terms, t.NeverEmpty)
    {text : List Char} {n : Nat} (hn : n ≤ (a.pipeline.apply text).length) {m : Match} :
    m ∈ (List.range n).flatMap (a.foundAt (a.pipeline.apply text) (a.whitelist.scan text)) ↔
      Term.OccursBefore o.terms text (a.pipeline.apply text) n m ∧
        ∀ span ∈ (a.whitelist.scan text).toList, ¬span.contains ⟨m.first, m.last⟩ := by
  have sound := (builtFrom built).sound
  have hvariants := (builtFrom built).variants_eq
  simp only [List.mem_flatMap, List.mem_range, Term.OccursBefore]
  constructor
  · rintro ⟨j, hj, hm⟩
    rw [mem_foundAt_iff sound (wide_of_build built wide) _ (by omega)] at hm
    obtain ⟨v, hv, i, hi, hstands, hopens, hcloses, hspans, rfl⟩ := hm
    rw [Whitelist.not_anyContains_scan_iff] at hspans
    rw [hvariants, Variant.mem_ofTerms_iff] at hv
    obtain ⟨t, ht, e, he, rfl⟩ := hv
    exact ⟨⟨t, ht, e, i, j, hj, (occursAt_iff he (wide t ht e he) hi (by omega)).mpr
      ⟨hstands, hopens, hcloses, rfl⟩⟩, hspans⟩
  · rintro ⟨⟨t, ht, e, i, j, hj, hoccurs⟩, hspans⟩
    have he := hoccurs.expands
    have hle := hoccurs.first_le_last
    have hi : i < (a.pipeline.apply text).length := by omega
    have hjlt : j < (a.pipeline.apply text).length := by omega
    refine ⟨j, hj, (mem_foundAt_iff sound (wide_of_build built wide) _ hjlt).mpr ?_⟩
    obtain ⟨hstands, hopens, hcloses, rfl⟩ :=
      (occursAt_iff he (wide t ht e he) hi hjlt).mp hoccurs
    rw [← Whitelist.not_anyContains_scan_iff] at hspans
    refine ⟨Variant.ofExpansion t e, ?_, i, hi, hstands, hopens, hcloses, hspans, rfl⟩
    rw [hvariants, Variant.mem_ofTerms_iff]
    exact ⟨t, ht, e, he, rfl⟩

theorem last_eq_of_mem_foundAt {kept : List Mapped} {whitelisted : IntervalSet} {k : Nat}
    (hk : k < kept.length) {m : Match} (hm : m ∈ a.foundAt kept whitelisted k) :
    m.last = kept[k].site.span.last := by
  rw [foundAt, List.getElem?_eq_getElem hk] at hm
  simp only [List.mem_eraseDups, List.mem_filterMap] at hm
  obtain ⟨v, -, hmatch⟩ := hm
  rw [match?, matchOf?] at hmatch
  split at hmatch
  · contradiction
  · split_ifs at hmatch
    rw [← Option.some.inj hmatch]

/-- Matches found at different indices end at different places. -/
theorem last_lt_of_mem_foundAt {p : Pipeline} {text : List Char} {whitelisted : IntervalSet}
    {i j : Nat} (hi : i < (p.apply text).length) (hj : j < (p.apply text).length) (hij : i < j)
    {m m' : Match} (hm : m ∈ a.foundAt (p.apply text) whitelisted i)
    (hm' : m' ∈ a.foundAt (p.apply text) whitelisted j) : m.last < m'.last := by
  rw [last_eq_of_mem_foundAt hi hm, last_eq_of_mem_foundAt hj hm']
  have hspan := site_first_le_last (Pipeline.site_mem_sites hj)
  exact (Pipeline.last_lt_first hi hj hij).trans_le hspan

theorem nodup_found (a : Automaton) (p : Pipeline) (text : List Char) (whitelisted : IntervalSet)
    {n : Nat} (hn : n ≤ (p.apply text).length) :
    ((List.range n).flatMap (a.foundAt (p.apply text) whitelisted)).Nodup := by
  rw [List.nodup_flatMap]
  constructor
  · intro k hk
    have hlt : k < (p.apply text).length := (List.mem_range.mp hk).trans_le hn
    rw [foundAt, List.getElem?_eq_getElem hlt]
    exact nodup_eraseDups _
  · refine List.pairwise_lt_range.imp_of_mem fun {i j} hi hj hij m hmi hmj => ?_
    have hi : i < (p.apply text).length := (List.mem_range.mp hi).trans_le hn
    have hj : j < (p.apply text).length := (List.mem_range.mp hj).trans_le hn
    exact absurd (last_lt_of_mem_foundAt hi hj hij hmi hmj) (Nat.lt_irrefl _)

/-- A scan succeeds if the limit holds at every index, and then gives what is found at each. -/
theorem allMatches_eq_ok_iff (sound : a.Sound) {input : String} {found : List Match} :
    a.allMatches input = .ok found ↔
      (∀ k < (a.pipeline.apply input.toList).length,
        a.loadAt (a.pipeline.apply input.toList) k ≤ a.limit) ∧
      (List.range (a.pipeline.apply input.toList).length).flatMap
        (a.foundAt (a.pipeline.apply input.toList) (a.whitelist.scan input.toList)) = found := by
  rw [allMatches, scan]
  rcases a.loadAt_cases (a.pipeline.apply input.toList) with hload | ⟨n, hn, hexceeds, hload⟩
  · rw [a.scanFrom_of_le _ sound input _ hload]
    simpa using fun _ => hload
  · rw [a.scanFrom_of_lt sound input _ hn hload hexceeds]
    simp only [reduceCtorEq, false_iff, not_and]
    intro h
    exact absurd (h n hn) (Nat.not_le.mpr hexceeds)

theorem mem_allMatches_iff (built : build o = .ok a) (wide : ∀ t ∈ o.terms, t.NeverEmpty)
    {input : String} {found : List Match} (h : a.allMatches input = .ok found) {m : Match} :
    m ∈ found ↔
      (∃ t ∈ o.terms, ∃ e i j,
        t.OccursAt e input.toList (o.blacklistPipeline.apply input.toList) i j m) ∧
      ∀ span ∈ (a.whitelist.scan input.toList).toList, ¬span.contains ⟨m.first, m.last⟩ := by
  obtain ⟨-, rfl⟩ := (allMatches_eq_ok_iff (builtFrom built).sound).mp h
  rw [mem_found_iff built wide (Nat.le_refl _), Term.occursBefore_length_iff,
    (builtFrom built).pipeline_eq]

/-- A scan that succeeds finds each occurrence of a term that no whitelisted span contains, once,
and nothing else. -/
theorem allMatches_exact (built : build o = .ok a) (wide : ∀ t ∈ o.terms, t.NeverEmpty)
    {input : String} {found : List Match} (h : a.allMatches input = .ok found) :
    found.Nodup ∧ ∀ m, m ∈ found ↔
      (∃ t ∈ o.terms, ∃ e i j,
        t.OccursAt e input.toList (o.blacklistPipeline.apply input.toList) i j m) ∧
      ∀ span ∈ (a.whitelist.scan input.toList).toList, ¬span.contains ⟨m.first, m.last⟩ := by
  obtain ⟨-, rfl⟩ := (allMatches_eq_ok_iff (builtFrom built).sound).mp h
  refine ⟨a.nodup_found _ _ _ (Nat.le_refl _), fun m => ?_⟩
  rw [mem_found_iff built wide (Nat.le_refl _), Term.occursBefore_length_iff,
    (builtFrom built).pipeline_eq]

/-! A sample -/

/-- Two terms, one of them with an optional, a phrase that excuses, and a character that is
dropped. -/
def sampleOptions (limit : Option Nat) : Options where
  terms := [⟨7, ⟨true, false, [.one (.literal ['a']), .optional .wildcard]⟩⟩,
    ⟨9, ⟨false, false, [.one (.literal ['b'])]⟩⟩]
  whitelist := ["xb"]
  blacklistPipeline := ⟨[.mapping fun c => if c = '-' then none else some c]⟩
  whitelistPipeline := .identity
  limit

/-- The automaton of the sample. -/
def sampleAutomaton (limit : Option Nat) : Automaton :=
  ofVariants [⟨7, true, false, [.literal ['a']]⟩, ⟨7, true, false, [.literal ['a'], .wildcard]⟩,
      ⟨9, false, false, [.literal ['b']]⟩]
    (.ofWords [['x', 'b']] .identity) (sampleOptions limit).blacklistPipeline
    (limit.getD defaultLimit)

theorem build_sampleOptions (limit : Option Nat) :
    build (sampleOptions limit) = .ok (sampleAutomaton limit) := by
  have hvariants : (sampleOptions limit).terms.flatMap Variant.ofTerm =
      (sampleAutomaton limit).variants := by
    simp only [sampleOptions, List.flatMap_cons, List.flatMap_nil, Variant.ofTerm_eq]
    rfl
  refine build_eq_ok_iff.mpr ⟨rfl, _, rfl, ?_⟩
  rw [hvariants]
  rfl

theorem neverEmpty_sampleOptions (limit : Option Nat) :
    ∀ t ∈ (sampleOptions limit).terms, t.NeverEmpty := by
  simp only [sampleOptions, Term.NeverEmpty]
  decide

theorem allMatches_exact_sample :
    let a := sampleAutomaton none
    let text := "a-b xb b".toList
    let found : List Match := [⟨7, 1, 0, 0⟩, ⟨7, 2, 0, 2⟩, ⟨9, 1, 2, 2⟩, ⟨9, 1, 7, 7⟩]
    a.allMatches "a-b xb b" = .ok found ∧ found.Nodup ∧ ∀ m, m ∈ found ↔
      (∃ t ∈ (sampleOptions none).terms, ∃ e i j,
        t.OccursAt e text ((sampleOptions none).blacklistPipeline.apply text) i j m) ∧
      ∀ span ∈ (a.whitelist.scan text).toList, ¬span.contains ⟨m.first, m.last⟩ := by
  intro a text found
  have hfound : a.allMatches "a-b xb b" = .ok found := by decide +kernel
  exact ⟨hfound,
    allMatches_exact (build_sampleOptions none) (neverEmpty_sampleOptions none) hfound⟩

end Automaton

end TermScan
