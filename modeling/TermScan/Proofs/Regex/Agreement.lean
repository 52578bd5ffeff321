import TermScan.Proofs.Automaton.Exactness
import TermScan.Proofs.Regex.Meaning
import TermScan.Proofs.Sorting

/-!
# The matchers agree

Without optionals a term has one expansion, so at each character it matches in at most one way. A
boundary is looked for among the transformed characters by one matcher and in the source by the
other; both see the same where nothing is transformed. Then both find the same matches, and sorting
brings them into the same order.
-/
namespace TermScan

/-! Plain patterns -/

namespace Pattern

/-- Nothing in the pattern may be left out. -/
def IsPlain (p : Pattern) : Prop := ∀ n ∈ p.nodes, ¬n.isOptional

theorem exists_expand_eq {nodes : List Node} (plain : ∀ n ∈ nodes, ¬n.isOptional) :
    ∃ e, expand nodes = [e] := by
  induction nodes with
  | nil => exact ⟨[], rfl⟩
  | cons n nodes ih =>
    obtain ⟨e, he⟩ := ih fun n hn => plain n (List.mem_cons_of_mem _ hn)
    cases n with
    | one atom => exact ⟨e.push atom, by rw [expand, he]; rfl⟩
    | optional atom => exact absurd rfl (plain _ List.mem_cons_self)

/-- The length of the preferred match at an index of a text. -/
def lengthAt? (p : Pattern) (text : List Char) (i : Nat) : Option Nat :=
  p.matchLength? (text.take i).getLast? (text.drop i)

/-- A plain pattern matches where its expansion does and its boundaries are. -/
theorem lengthAt?_eq_some_iff {p : Pattern} {e : Expansion} (he : expand p.nodes = [e])
    {text : List Char} {i n : Nat} :
    p.lengthAt? text i = some n ↔
      (p.startBoundary → ¬(text.take i).getLast?.any isWordChar) ∧ e.width = n ∧
        e.Heads (text.drop i) ∧ (p.endBoundary → ¬(text.drop (i + n)).head?.any isWordChar) := by
  have hreaches (k : Nat) :
      Reaches (fun rest => !(p.endBoundary && rest.head?.any isWordChar)) p.nodes (text.drop i) k ↔
        e.width = k ∧ e.Heads (text.drop i) ∧
          (p.endBoundary → ¬(text.drop (i + k)).head?.any isWordChar) := by
    rw [Reaches, he]
    cases p.endBoundary <;> simp
  rw [lengthAt?, matchLength?, matchNodes?_eq_preferredLength?]
  split
  · next hstart =>
    rw [Bool.and_eq_true] at hstart
    simp [hstart.1, hstart.2]
  · next hstart =>
    rw [Bool.and_eq_true, not_and] at hstart
    constructor
    · intro h
      exact ⟨hstart, (hreaches n).mp (reaches_of_preferredLength? h)⟩
    · rintro ⟨-, h⟩
      obtain ⟨k, hk⟩ := Option.isSome_iff_exists.mp (preferredLength?_isSome ((hreaches n).mpr h))
      have hwidth := ((hreaches k).mp (reaches_of_preferredLength? hk)).1
      rw [hk, ← hwidth, h.1]

end Pattern

/-! Matches of one term -/

namespace RegexMatcher

variable {whitelisted : IntervalSet} {id : Int} {kept : List Mapped}

theorem matchesFrom_eq (whitelisted : IntervalSet) (id : Int) (p : Pattern)
    (read rest : List Mapped) :
    matchesFrom whitelisted id rest
        (p.matchLengthsFrom (read.map Mapped.char).getLast? (rest.map Mapped.char)) =
      ((List.range rest.length).map (read.length + ·)).filterMap fun i =>
        (p.lengthAt? ((read ++ rest).map Mapped.char) i).bind
          (match? whitelisted id ((read ++ rest).drop i)) := by
  induction rest generalizing read with
  | nil => rfl
  | cons m rest ih =>
    have hnext := ih (read ++ [m])
    have hlast : ((read ++ [m]).map Mapped.char).getLast? = some m.char := by simp
    rw [hlast, List.append_assoc, List.singleton_append, List.length_append,
      List.length_singleton] at hnext
    have hhere : p.lengthAt? ((read ++ m :: rest).map Mapped.char) read.length =
        p.matchLength? (read.map Mapped.char).getLast? (m.char :: rest.map Mapped.char) := by
      have hlength : read.length = (read.map Mapped.char).length := by simp
      rw [Pattern.lengthAt?, List.map_append, hlength, List.take_left, List.drop_left]
      rfl
    have hindices : (List.range (rest.length + 1)).map (read.length + ·) =
        read.length :: (List.range rest.length).map (read.length + 1 + ·) := by
      rw [List.range_succ_eq_map, List.map_cons, List.map_map, Nat.add_zero]
      refine congrArg _ (List.map_congr_left fun i _ => ?_)
      simp only [Function.comp_apply]
      omega
    rw [List.map_cons, Pattern.matchLengthsFrom, matchesFrom, hnext, List.length_cons, hindices,
      List.filterMap_cons, hhere, List.drop_left]
    cases (p.matchLength? (read.map Mapped.char).getLast?
      (m.char :: rest.map Mapped.char)).bind (match? whitelisted id (m :: rest)) <;> rfl

/-- A term is tried at each index. -/
theorem termMatches_eq (t : Term) :
    termMatches whitelisted kept t = (List.range kept.length).filterMap fun i =>
      (t.pattern.lengthAt? (kept.map Mapped.char) i).bind
        (match? whitelisted t.id (kept.drop i)) := by
  have h := matchesFrom_eq whitelisted t.id t.pattern [] kept
  simpa [termMatches, Pattern.matchLengths] using h

theorem match?_eq_some_iff {i n : Nat} (hi : i < kept.length) (hj : i + n - 1 < kept.length)
    {m : Match} (hn : 0 < n) :
    match? whitelisted id (kept.drop i) n = some m ↔
      ¬whitelisted.anyContains ⟨kept[i].site.span.first, kept[i + n - 1].site.span.last⟩ ∧
        ⟨id, n, kept[i].site.span.first, kept[i + n - 1].site.span.last⟩ = m := by
  have hspan : sourceSpan? (kept.drop i) 0 (n - 1) =
      some ⟨kept[i].site.span.first, kept[i + n - 1].site.span.last⟩ := by
    have hindex : i + (n - 1) = i + n - 1 := by omega
    simp [sourceSpan?, List.getElem?_eq_getElem hi, hindex, List.getElem?_eq_getElem hj]
  rw [match?, hspan]
  dsimp only
  split_ifs with hexcused
  · simp [hexcused]
  · simp [hexcused]

/-- What is matched is what would be if nothing were whitelisted, unless it is excused. -/
theorem match?_eq_filter (n : Nat) :
    match? whitelisted id kept n =
      (match? .empty id kept n).filter fun m => !whitelisted.anyContains ⟨m.first, m.last⟩ := by
  unfold match?
  cases sourceSpan? kept 0 (n - 1) with
  | none => rfl
  | some span =>
    cases h : whitelisted.anyContains ⟨span.first, span.last⟩ <;> simp [h, Option.filter_some]

end RegexMatcher

theorem heads_drop_iff {e : Expansion} {kept : List Mapped} {i : Nat} (hi : i ≤ kept.length) :
    e.Heads ((kept.map Mapped.char).drop i) ↔
      i + e.width ≤ kept.length ∧ fits e.symbols (between kept i (i + e.width)) := by
  have htake : ((kept.map Mapped.char).drop i).take e.width = between kept i (i + e.width) := by
    rw [between, List.drop_take, Nat.add_sub_cancel_left, ← List.map_drop, List.map_take]
  rw [Expansion.Heads, htake, List.length_drop, List.length_map]
  refine and_congr_left fun _ => ?_
  omega

theorem lt_length_of_heads_drop {e : Expansion} (wide : 0 < e.width) {kept : List Mapped} {i : Nat}
    (h : e.Heads ((kept.map Mapped.char).drop i)) : i < kept.length := by
  have := h.1
  rw [List.length_drop, List.length_map] at this
  omega

/-- The boundaries that a term asks for are seen among the characters kept as in the source. -/
def Term.SeesBoundaries (t : Term) (kept : List Mapped) : Prop :=
  ∀ i, ∀ hi : i < kept.length,
    (t.pattern.startBoundary → (kept[i].site.opensBoundary ↔
      ¬((kept.map Mapped.char).take i).getLast?.any isWordChar)) ∧
    (t.pattern.endBoundary → (kept[i].site.closesBoundary ↔
      ¬((kept.map Mapped.char).drop (i + 1)).head?.any isWordChar))

theorem seesBoundaries {t : Term} {p : Pipeline}
    (h : p.transformers = [] ∨ ¬t.pattern.startBoundary ∧ ¬t.pattern.endBoundary)
    (text : List Char) : t.SeesBoundaries (p.apply text) := by
  intro i hi
  rcases h with h | ⟨hstart, hend⟩
  · have hchars : (p.apply text).map Mapped.char = text := by
      rw [Pipeline.apply_of_empty h, List.map_map]
      exact map_char_sitesFrom 0 none text
    have hlt : i < text.length := by rwa [← List.length_map Mapped.char, hchars] at hi
    have hsite : (p.apply text)[i].site =
        siteBetween (text.take i) text[i] (text.drop (i + 1)) := by
      have hsites := getElem?_sites text i
      rw [List.getElem?_eq_getElem hlt] at hsites
      have happly := congrArg (·[i]?) (Pipeline.apply_of_empty h text)
      rw [List.getElem?_map, hsites, List.getElem?_eq_getElem hi] at happly
      exact congrArg Mapped.site (Option.some.inj happly)
    rw [hchars, hsite]
    simp [siteBetween, Site.opensBoundary, Site.closesBoundary]
  · exact ⟨fun h => absurd h hstart, fun h => absurd h hend⟩

/-- An expansion occurs where it matches and its boundaries are seen. -/
theorem exists_occursAt_iff {t : Term} {e : Expansion} (he : e ∈ expand t.pattern.nodes)
    (wide : 0 < e.width) {p : Pipeline} {text : List Char}
    (sees : t.SeesBoundaries (p.apply text)) {i : Nat} {m : Match} :
    (∃ j, t.OccursAt e text (p.apply text) i j m) ↔
      (t.pattern.startBoundary →
        ¬(((p.apply text).map Mapped.char).take i).getLast?.any isWordChar) ∧
      e.Heads (((p.apply text).map Mapped.char).drop i) ∧
      (t.pattern.endBoundary →
        ¬(((p.apply text).map Mapped.char).drop (i + e.width)).head?.any isWordChar) ∧
      RegexMatcher.match? .empty t.id ((p.apply text).drop i) e.width = some m := by
  constructor
  · intro ⟨j, hoccurs⟩
    have hspan := hoccurs.width_eq
    have hle := hoccurs.first_le_last
    have hj := hoccurs.lt_length
    have hi : i < (p.apply text).length := by omega
    obtain rfl : j = i + e.width - 1 := by omega
    have hlast : i + e.width - 1 + 1 = i + e.width := by omega
    obtain ⟨⟨-, hfits⟩, hopens, hcloses, rfl⟩ := (occursAt_iff he wide hi hj).mp hoccurs
    rw [hlast] at hfits
    refine ⟨fun h => ((sees i hi).1 h).mp (hopens h),
      (heads_drop_iff hi.le).mpr ⟨by omega, hfits⟩, fun h => ?_,
      (RegexMatcher.match?_eq_some_iff hi hj wide).mpr ⟨by simp, rfl⟩⟩
    have := (sees _ hj).2 h
    rw [hlast] at this
    exact this.mp (hcloses h)
  · intro ⟨hstart, hheads, hend, hmatch⟩
    have hi := lt_length_of_heads_drop wide hheads
    obtain ⟨hle, hfits⟩ := (heads_drop_iff hi.le).mp hheads
    have hj : i + e.width - 1 < (p.apply text).length := by omega
    have hlast : i + e.width - 1 + 1 = i + e.width := by omega
    obtain ⟨-, rfl⟩ := (RegexMatcher.match?_eq_some_iff hi hj wide).mp hmatch
    refine ⟨i + e.width - 1, (occursAt_iff he wide hi hj).mpr ⟨⟨hlast.symm, ?_⟩, ?_, ?_, rfl⟩⟩
    · rwa [hlast]
    · exact fun h => ((sees i hi).1 h).mpr (hstart h)
    · intro h
      rw [(sees _ hj).2 h, hlast]
      exact hend h

/-- A plain term matches where its expansion occurs and no whitelisted span contains it. -/
theorem mem_termMatches_iff {t : Term} {e : Expansion} (he : expand t.pattern.nodes = [e])
    (wide : 0 < e.width) {p : Pipeline} {text : List Char} {whitelisted : IntervalSet}
    (sees : t.SeesBoundaries (p.apply text)) {m : Match} :
    m ∈ RegexMatcher.termMatches whitelisted (p.apply text) t ↔
      (∃ i j, t.OccursAt e text (p.apply text) i j m) ∧
        ¬whitelisted.anyContains ⟨m.first, m.last⟩ := by
  have hmem : e ∈ expand t.pattern.nodes := by simp [he]
  rw [RegexMatcher.termMatches_eq]
  simp only [exists_occursAt_iff hmem wide sees, List.mem_filterMap, List.mem_range,
    Option.bind_eq_some_iff, Pattern.lengthAt?_eq_some_iff he]
  constructor
  · rintro ⟨i, hi, n, ⟨hstart, rfl, hheads, hend⟩, hmatch⟩
    rw [RegexMatcher.match?_eq_filter, Option.filter_eq_some_iff] at hmatch
    exact ⟨⟨i, hstart, hheads, hend, hmatch.1⟩, by simpa using hmatch.2⟩
  · rintro ⟨⟨i, hstart, hheads, hend, hmatch⟩, hexcused⟩
    refine ⟨i, lt_length_of_heads_drop wide hheads, e.width, ⟨hstart, rfl, hheads, hend⟩, ?_⟩
    rw [RegexMatcher.match?_eq_filter, Option.filter_eq_some_iff]
    exact ⟨hmatch, by simpa using hexcused⟩

/-! Matches of all terms -/

namespace RegexMatcher

theorem first_of_match? {whitelisted : IntervalSet} {id : Int} {kept : List Mapped} {n : Nat}
    {m : Match} (h : match? whitelisted id kept n = some m) :
    kept[0]?.map (·.site.span.first) = some m.first ∧ m.termId = id := by
  rw [match?] at h
  split at h
  · contradiction
  · next span hspan =>
    split at h
    · contradiction
    · obtain rfl := Option.some.inj h
      obtain ⟨first, hfirst, hlast⟩ := Option.bind_eq_some_iff.mp hspan
      obtain ⟨last, -, hspan⟩ := Option.bind_eq_some_iff.mp hlast
      rw [hfirst, ← Option.some.inj hspan]
      exact ⟨rfl, rfl⟩

/-- Matches of one term start at different characters. -/
theorem nodup_termMatches (whitelisted : IntervalSet) (p : Pipeline) (text : List Char)
    (t : Term) : (termMatches whitelisted (p.apply text) t).Nodup := by
  rw [termMatches_eq]
  have hfirst {i : Nat} {m : Match} (h : m ∈ (t.pattern.lengthAt? ((p.apply text).map Mapped.char)
      i).bind (match? whitelisted t.id ((p.apply text).drop i))) :
      ∃ hi : i < (p.apply text).length, (p.apply text)[i].site.span.first = m.first := by
    obtain ⟨n, -, hmatch⟩ := Option.bind_eq_some_iff.mp h
    have hstart := (first_of_match? hmatch).1
    rw [List.getElem?_drop, Nat.add_zero, Option.map_eq_some_iff] at hstart
    obtain ⟨m', hm', heq⟩ := hstart
    obtain ⟨hi, rfl⟩ := List.getElem?_eq_some_iff.mp hm'
    exact ⟨hi, heq⟩
  refine List.Nodup.filterMap (fun i j m hmi hmj => ?_) List.nodup_range
  obtain ⟨hi, hmi⟩ := hfirst hmi
  obtain ⟨hj, hmj⟩ := hfirst hmj
  exact Pipeline.eq_of_first_eq hi hj (hmi.trans hmj.symm)

theorem termId_of_mem_termMatches {whitelisted : IntervalSet} {kept : List Mapped} {t : Term}
    {m : Match} (h : m ∈ termMatches whitelisted kept t) : m.termId = t.id := by
  rw [termMatches_eq] at h
  obtain ⟨i, -, hmatch⟩ := List.mem_filterMap.mp h
  obtain ⟨n, -, hmatch⟩ := Option.bind_eq_some_iff.mp hmatch
  exact (first_of_match? hmatch).2

variable {o : Options} {r : RegexMatcher}

theorem build_eq_ok_iff : build o = .ok r ↔ Term.validate o.terms = .ok () ∧
    ∃ whitelist, Whitelist.build o.whitelist o.whitelistPipeline = .ok whitelist ∧
      ⟨o.terms, whitelist, o.blacklistPipeline⟩ = r := by
  rw [build, bind_eq_ok_iff]
  simp only [bind_eq_ok_iff, pure, Except.pure, Except.ok.injEq]
  exact ⟨fun ⟨_, h⟩ => h, fun h => ⟨(), h⟩⟩

/-- What there is to know of a matcher that is built for some options. -/
structure BuiltFrom (r : RegexMatcher) (o : Options) : Prop where
  terms_eq : r.terms = o.terms
  pipeline_eq : r.pipeline = o.blacklistPipeline
  valid : Term.validate o.terms = .ok ()
  whitelist_eq : Whitelist.build o.whitelist o.whitelistPipeline = .ok r.whitelist

theorem builtFrom (h : build o = .ok r) : r.BuiltFrom o := by
  obtain ⟨hterms, whitelist, hwhitelist, rfl⟩ := build_eq_ok_iff.mp h
  exact ⟨rfl, rfl, hterms, hwhitelist⟩

theorem nodup_allMatches (built : build o = .ok r) (input : String) :
    (r.allMatches input).Nodup := by
  obtain ⟨hvalid, whitelist, -, rfl⟩ := build_eq_ok_iff.mp built
  rw [allMatches, List.nodup_flatMap]
  refine ⟨fun t _ => nodup_termMatches _ _ _ t, ?_⟩
  refine (List.pairwise_map.mp (Term.nodup_ids hvalid)).imp fun {t t'} hne m hm hm' => ?_
  exact hne ((termId_of_mem_termMatches hm).symm.trans (termId_of_mem_termMatches hm'))

/-- Plain terms are found wherever they occur and no whitelisted span contains them. -/
theorem mem_allMatches_iff (built : build o = .ok r) (plain : ∀ t ∈ o.terms, t.pattern.IsPlain)
    (wide : ∀ t ∈ o.terms, t.NeverEmpty)
    (boundaries : o.blacklistPipeline.transformers = [] ∨
      ∀ t ∈ o.terms, ¬t.pattern.startBoundary ∧ ¬t.pattern.endBoundary)
    {input : String} {m : Match} :
    m ∈ r.allMatches input ↔
      (∃ t ∈ o.terms, ∃ e i j,
        t.OccursAt e input.toList (o.blacklistPipeline.apply input.toList) i j m) ∧
      ∀ span ∈ (r.whitelist.scan input.toList).toList, ¬span.contains ⟨m.first, m.last⟩ := by
  obtain ⟨-, whitelist, -, rfl⟩ := build_eq_ok_iff.mp built
  have hterm {t : Term} (ht : t ∈ o.terms) {e : Expansion} (he : expand t.pattern.nodes = [e]) :
      m ∈ termMatches (whitelist.scan input.toList)
          (o.blacklistPipeline.apply input.toList) t ↔
        (∃ i j, t.OccursAt e input.toList (o.blacklistPipeline.apply input.toList) i j m) ∧
          ∀ span ∈ (whitelist.scan input.toList).toList, ¬span.contains ⟨m.first, m.last⟩ := by
    have hsees := seesBoundaries (boundaries.imp_right fun h => h t ht) input.toList
    rw [mem_termMatches_iff he (wide t ht e (by simp [he])) hsees,
      IntervalSet.anyContains_iff (Whitelist.sound_scan _ _)]
    simp
  rw [allMatches, List.mem_flatMap]
  constructor
  · rintro ⟨t, ht, hm⟩
    obtain ⟨e, he⟩ := Pattern.exists_expand_eq (plain t ht)
    obtain ⟨⟨i, j, hoccurs⟩, hspans⟩ := (hterm ht he).mp hm
    exact ⟨⟨t, ht, e, i, j, hoccurs⟩, hspans⟩
  · rintro ⟨⟨t, ht, e, i, j, hoccurs⟩, hspans⟩
    obtain ⟨e', he⟩ := Pattern.exists_expand_eq (plain t ht)
    obtain rfl : e = e' := by simpa [he] using hoccurs.expands
    exact ⟨t, ht, (hterm ht he).mpr ⟨⟨i, j, hoccurs⟩, hspans⟩⟩

end RegexMatcher

/-- Position and term tell the occurrences of plain terms apart. -/
theorem distinguished_of_plain {terms : List Term} (hids : (terms.map Term.id).Nodup)
    (plain : ∀ t ∈ terms, t.pattern.IsPlain) {text : List Char} {kept : List Mapped}
    {found : List Match}
    (h : ∀ m ∈ found, ∃ t ∈ terms, ∃ e i j, t.OccursAt e text kept i j m) :
    Match.Distinguished found := by
  intro m hm m' hm' hfirst hlast hid
  obtain ⟨t, ht, e, i, j, hoccurs⟩ := h m hm
  obtain ⟨t', ht', e', i', j', hoccurs'⟩ := h m' hm'
  obtain rfl : t = t' := by
    refine List.inj_on_of_nodup_map hids ht ht' ?_
    rw [← hoccurs.termId_eq, ← hoccurs'.termId_eq, hid]
  obtain ⟨e₀, he⟩ := Pattern.exists_expand_eq (plain t ht)
  obtain rfl : e = e₀ := by simpa [he] using hoccurs.expands
  obtain rfl : e' = e := by simpa [he] using hoccurs'.expands
  have hlength : m.length = m'.length := by rw [hoccurs.length_eq, hoccurs'.length_eq]
  cases m
  cases m'
  simp_all

/-- Where no term has optionals and boundaries look the same to both, the automaton and the
regular expressions find the same matches in the same order, none of them twice. All that is
asked of a compiled expression is that it does what its tokens say. -/
theorem matchers_agree {o : Options} {a : Automaton} {r : RegexMatcher}
    (builtAutomaton : Automaton.build o = .ok a) (builtRegex : RegexMatcher.build o = .ok r)
    (plain : ∀ t ∈ o.terms, t.pattern.IsPlain) (wide : ∀ t ∈ o.terms, t.NeverEmpty)
    (boundaries : o.blacklistPipeline.transformers = [] ∨
      ∀ t ∈ o.terms, ¬t.pattern.startBoundary ∧ ¬t.pattern.endBoundary)
    {engines : Engines} (follow : ∀ t ∈ o.terms, engines.Follow t.pattern)
    {input : String} (scanned : ∃ found, a.allMatches input = .ok found) :
    a.sortedMatches input = .ok (r.sortedSearchMatches engines input) ∧
      r.sortedSearchMatches engines input = r.sortedMatches input ∧
      (r.sortedMatches input).Nodup := by
  obtain ⟨found, hfound⟩ := scanned
  have facts := Automaton.builtFrom builtAutomaton
  obtain ⟨hvalid, whitelist, hwhitelist, hregex⟩ := RegexMatcher.build_eq_ok_iff.mp builtRegex
  have hterms : r.terms = o.terms := by rw [← hregex]
  have hsame : r.whitelist = a.whitelist := by
    rw [← hregex]
    exact Except.ok.inj (hwhitelist.symm.trans facts.whitelist_eq)
  have leftmost := fun t ht => Engines.follow_iff.mp (follow t ht)
  have hsearch : r.searchMatches engines input = r.allMatches input :=
    r.searchMatches_eq (hterms ▸ leftmost) (hterms ▸ fun t ht => Pattern.matchesSome (wide t ht))
      input
  have hnodup := RegexMatcher.nodup_allMatches builtRegex input
  have hmem (m : Match) : m ∈ r.allMatches input ↔ _ :=
    RegexMatcher.mem_allMatches_iff builtRegex plain wide boundaries
  have hperm : (r.allMatches input).Perm found := by
    obtain ⟨-, rfl⟩ := (Automaton.allMatches_eq_ok_iff facts.sound).mp hfound
    refine (List.perm_ext_iff_of_nodup hnodup (a.nodup_found _ _ _ (Nat.le_refl _))).mpr fun m => ?_
    rw [hmem, Automaton.mem_found_iff builtAutomaton wide (Nat.le_refl _),
      Term.occursBefore_length_iff, facts.pipeline_eq, hsame]
  have hdistinguished : Match.Distinguished (r.allMatches input) :=
    distinguished_of_plain (Term.nodup_ids hvalid) plain fun m hm => ((hmem m).mp hm).1
  have hsorted := Match.sort_eq_of_perm hperm hdistinguished
  rw [Automaton.sortedMatches, hfound, RegexMatcher.sortedSearchMatches, hsearch,
    RegexMatcher.sortedMatches]
  exact ⟨congrArg Except.ok hsorted.symm, rfl, (Match.sort_perm _).nodup_iff.mpr hnodup⟩

/-! A sample -/

/-- Two plain terms, one of them with a boundary, and a phrase that excuses. -/
def plainOptions : Options where
  terms := [⟨7, ⟨true, false, [.one (.literal ['a']), .one .wildcard]⟩⟩,
    ⟨9, ⟨false, false, [.one (.literal ['b'])]⟩⟩]
  whitelist := ["xb"]
  blacklistPipeline := .identity
  whitelistPipeline := .identity
  limit := none

/-- The automaton of the sample. -/
def plainAutomaton : Automaton :=
  .ofVariants [⟨7, true, false, [.literal ['a'], .wildcard]⟩, ⟨9, false, false, [.literal ['b']]⟩]
    (.ofWords [['x', 'b']] .identity) .identity Automaton.defaultLimit

theorem build_plainOptions : Automaton.build plainOptions = .ok plainAutomaton := by
  have hvariants : plainOptions.terms.flatMap Variant.ofTerm = plainAutomaton.variants := by
    simp only [plainOptions, List.flatMap_cons, List.flatMap_nil, Variant.ofTerm_eq]
    rfl
  refine Automaton.build_eq_ok_iff.mpr ⟨rfl, _, rfl, ?_⟩
  rw [hvariants]
  rfl

theorem matchers_agree_sample :
    let r : RegexMatcher := ⟨plainOptions.terms, .ofWords [['x', 'b']] .identity, .identity⟩
    let engines := Engines.ofTerms plainOptions.terms
    plainAutomaton.sortedMatches "ab xb b" = .ok (r.sortedSearchMatches engines "ab xb b") ∧
      r.sortedSearchMatches engines "ab xb b" = r.sortedMatches "ab xb b" ∧
      (r.sortedMatches "ab xb b").Nodup := by
  intro r engines
  have wide : ∀ t ∈ plainOptions.terms, t.NeverEmpty := by
    simp only [plainOptions, Term.NeverEmpty]
    decide
  have plain : ∀ t ∈ plainOptions.terms, t.pattern.IsPlain := by
    simp only [plainOptions, Pattern.IsPlain]
    decide
  have hfound : plainAutomaton.allMatches "ab xb b" =
      .ok [⟨7, 2, 0, 1⟩, ⟨9, 1, 1, 1⟩, ⟨9, 1, 6, 6⟩] := by decide +kernel
  have follow : ∀ t ∈ plainOptions.terms,
      (Engines.ofTerms plainOptions.terms).Follow t.pattern :=
    Engines.follow_ofTerms (by decide)
  exact matchers_agree build_plainOptions rfl plain wide (.inl rfl) follow ⟨_, hfound⟩

end TermScan
