import TermScan.Proofs.Automaton.Limit

/-!
# The order of a scan

The expansions of all terms are numbered in the order of their construction. Of those that occur
up to the same character, the ones with wildcards come first, in the order of where their first
wildcard stands and then by the length of their lead; the literal ones follow, the longest first.
The numbers break the ties. A match that several of them give stands where the first one does.
-/
open scoped List

namespace TermScan

/-- The expansions of terms, in the order of their construction. -/
def Term.expansions (terms : List Term) : List (Term × Expansion) :=
  terms.flatMap fun t => (expand t.pattern.nodes).eraseDups.map (t, ·)

/-- A numbered expansion, the indices of the characters it stands at, and the match found. -/
structure Report where
  number : Nat
  term : Term
  expansion : Expansion
  first : Nat
  last : Nat
  found : Match

theorem Term.mem_expansions_iff {terms : List Term} {t : Term} {e : Expansion} :
    (t, e) ∈ expansions terms ↔ t ∈ terms ∧ e ∈ expand t.pattern.nodes := by
  simp [expansions]

namespace Report

/-- The expansion has its number and occurs, and no whitelisted span contains the match. -/
structure IsDue (r : Report) (terms : List Term) (text : List Char) (kept : List Mapped)
    (whitelisted : List Interval) : Prop where
  numbered : (Term.expansions terms)[r.number]? = some (r.term, r.expansion)
  occurs : r.term.OccursAt r.expansion text kept r.first r.last r.found
  allowed : ∀ span ∈ whitelisted, ¬span.contains ⟨r.found.first, r.found.last⟩

/-- The index of the character that the first wildcard stands for. -/
def wildcardIndex (r : Report) : Nat := r.first + r.expansion.lead.length

/-- The order of reports that end together: those with wildcards come first. -/
def OutranksAtEnd (r r' : Report) : Prop :=
  if .wildcard ∈ r.expansion then
    .wildcard ∈ r'.expansion →
      r.wildcardIndex < r'.wildcardIndex ∨ r.wildcardIndex = r'.wildcardIndex ∧
        (r'.expansion.lead.length < r.expansion.lead.length ∨
          r'.expansion.lead.length = r.expansion.lead.length ∧ r.number < r'.number)
  else .wildcard ∉ r'.expansion ∧
    (r'.expansion.width < r.expansion.width ∨
      r'.expansion.width = r.expansion.width ∧ r.number < r'.number)

/-- The order of reports, by the place where they end. -/
def Precedes (r r' : Report) : Prop :=
  r.found.last < r'.found.last ∨ r.found.last = r'.found.last ∧ r.OutranksAtEnd r'

end Report

/-! Repetitions -/

/-- Lists without common items lose their repetitions one by one. -/
theorem eraseDups_flatMap {α β : Type} [BEq β] [LawfulBEq β] {f : α → List β} {items : List α}
    (apart : items.Pairwise fun x y => (f x).Disjoint (f y)) :
    (items.flatMap f).eraseDups = items.flatMap fun x => (f x).eraseDups := by
  induction items with
  | nil => rfl
  | cons x items ih =>
    obtain ⟨hx, hitems⟩ := List.pairwise_cons.mp apart
    have hremove : (items.flatMap f).removeAll (f x) = items.flatMap f := by
      refine List.filter_eq_self.mpr fun b hb => ?_
      obtain ⟨y, hy, hb⟩ := List.mem_flatMap.mp hb
      simpa using fun h => hx y hy h hb
    rw [List.flatMap_cons, List.flatMap_cons, List.eraseDups_append, hremove, ih hitems]

/-! Variants in order -/

namespace Variant

theorem pairwise_idxOf {variants : List Variant} (h : variants.Nodup) :
    variants.Pairwise fun v v' => variants.idxOf v < variants.idxOf v' := by
  refine List.pairwise_iff_getElem.mpr fun i j hi hj hij => ?_
  rwa [h.idxOf_getElem, h.idxOf_getElem]

/-- With the longer lead first, and in the order of the list where leads are equally long. -/
theorem pairwise_withLeadIn {variants : List Variant} (nodup : variants.Nodup)
    (chosen : Variant → Bool) (text : List Char) :
    (withLeadIn (variants.filter chosen) text).Pairwise fun v v' =>
      v'.atoms.lead.length < v.atoms.lead.length ∨
        v'.atoms.lead.length = v.atoms.lead.length ∧ variants.idxOf v < variants.idxOf v' := by
  unfold withLeadIn
  rw [List.pairwise_flatMap]
  constructor
  · intro s _
    have hrow : ((variants.filter chosen).filter fun v => v.atoms.lead = s) <+ variants :=
      List.filter_sublist.trans List.filter_sublist
    refine ((pairwise_idxOf nodup).sublist hrow).imp_of_mem fun {v v'} hv hv' hlt => ?_
    simp only [List.mem_filter, decide_eq_true_eq] at hv hv'
    exact .inr ⟨by rw [hv.2, hv'.2], hlt⟩
  · refine (Trie.pairwise_tails text).imp fun {s s'} hlt v hv v' hv' => ?_
    simp only [List.mem_filter, decide_eq_true_eq] at hv hv'
    rw [hv.2, hv'.2]
    exact .inl hlt

/-- Different terms have different ids, and a term has each expansion once. -/
theorem nodup_ofTerms {terms : List Term} (h : Term.validate terms = .ok ()) :
    (terms.flatMap ofTerm).Nodup := by
  rw [List.nodup_flatMap]
  constructor
  · intro t _
    rw [ofTerm_eq]
    exact (nodup_eraseDups _).map fun e e' heq => congrArg atoms heq
  · refine (List.pairwise_map.mp (Term.nodup_ids h)).imp fun {t t'} hne v hv hv' => ?_
    rw [ofTerm_eq, List.mem_map] at hv hv'
    obtain ⟨e, -, rfl⟩ := hv
    obtain ⟨e', -, heq⟩ := hv'
    exact hne (congrArg termId heq).symm

theorem ofTerms_eq (terms : List Term) :
    terms.flatMap ofTerm = (Term.expansions terms).map fun x => ofExpansion x.1 x.2 := by
  rw [Term.expansions, List.map_flatMap]
  refine List.flatMap_congr fun t _ => ?_
  rw [ofTerm_eq, List.map_map]
  rfl

end Variant

namespace Automaton

variable {o : Options} {a : Automaton} {kept : List Mapped}

/-- The order of variants that end at the same index: a longer tail has its first wildcard
earlier. -/
def Outranks (a : Automaton) (v v' : Variant) : Prop :=
  if v.atoms.tail ≠ [] then
    v'.atoms.tail ≠ [] →
      v'.atoms.tail.width < v.atoms.tail.width ∨ v'.atoms.tail.width = v.atoms.tail.width ∧
        (v'.atoms.lead.length < v.atoms.lead.length ∨
          v'.atoms.lead.length = v.atoms.lead.length ∧ a.variants.idxOf v < a.variants.idxOf v')
  else v'.atoms.tail = [] ∧
    (v'.width < v.width ∨ v'.width = v.width ∧ a.variants.idxOf v < a.variants.idxOf v')

/-- A walk that starts at index `s` completes a tail that reaches from there to the end. -/
theorem width_tail_of_completed (wide : a.Wide) {s k : Nat} (hk : k < kept.length) {v : Variant}
    (hv : v ∈ (a.spawned kept s).filterMap (·.completed? (between kept s (k + 1)))) :
    v.atoms.tail ≠ [] ∧ v.atoms.tail.width = k + 1 - s := by
  obtain ⟨w, hw, hcompleted⟩ := List.mem_filterMap.mp hv
  obtain ⟨v', hv', hforks, -, -, rfl⟩ := mem_spawned_iff.mp hw
  obtain ⟨hcomplete, rfl⟩ : _ ∧ v' = v := Option.ite_some_none_eq_some.mp hcompleted
  obtain ⟨-, hlength⟩ :=
    (Expansion.follow_eq_complete_iff (wide v' hv').1.tail hforks _).mp hcomplete
  rw [length_between kept hk] at hlength
  exact ⟨hforks, hlength.symm⟩

/-- The walks that start at an index and are completed keep the order of their variants. -/
theorem completed_sublist (a : Automaton) (kept : List Mapped) (s k : Nat) :
    (a.spawned kept s).filterMap (·.completed? (between kept s k)) <+
      Variant.withLeadIn (a.variants.filter (!·.isLiteral)) (between kept 0 s) := by
  have hguard : (fun v : Variant => (⟨v, v.atoms.tail⟩ : Walk).completed? (between kept s k)) =
      Option.guard fun v => v.atoms.tail.follow (between kept s k) = .complete := by
    funext v
    simp [Walk.completed?, Option.guard]
  rw [spawned, List.filterMap_map]
  change List.filterMap (fun v : Variant => (⟨v, v.atoms.tail⟩ : Walk).completed? _) _ <+ _
  rw [hguard, List.filterMap_eq_filter]
  exact List.filter_sublist.trans List.filter_sublist

theorem pairwise_completedAt (wide : a.Wide) (nodup : a.variants.Nodup) {k : Nat}
    (hk : k < kept.length) : (a.completedAt kept k).Pairwise a.Outranks := by
  unfold completedAt
  rw [List.pairwise_flatMap]
  constructor
  · intro s _
    have hleads := Variant.pairwise_withLeadIn nodup (!·.isLiteral) (between kept 0 s)
    refine (hleads.sublist (a.completed_sublist kept s (k + 1))).imp_of_mem
      fun {v v'} hv hv' hlead => ?_
    obtain ⟨hforks, hwidth⟩ := width_tail_of_completed wide hk hv
    obtain ⟨-, hwidth'⟩ := width_tail_of_completed wide hk hv'
    rw [Outranks, if_pos hforks]
    exact fun _ => .inr ⟨hwidth'.trans hwidth.symm, hlead⟩
  · refine List.pairwise_lt_range.imp_of_mem fun {s s'} _ hs' hlt v hv v' hv' => ?_
    obtain ⟨hforks, hwidth⟩ := width_tail_of_completed wide hk hv
    obtain ⟨-, hwidth'⟩ := width_tail_of_completed wide hk hv'
    rw [List.mem_range] at hs'
    rw [Outranks, if_pos hforks]
    exact fun _ => .inl (by omega)

/-- The variants found at an index are found in order. -/
theorem pairwise_variantsAt (wide : a.Wide) (nodup : a.variants.Nodup) {k : Nat}
    (hk : k < kept.length) : (a.variantsAt kept k).Pairwise a.Outranks := by
  have hliteral {v : Variant} (hv : v ∈ Variant.withLeadIn (a.variants.filter (·.isLiteral))
      (between kept 0 (k + 1))) : v.atoms.tail = [] ∧ v.width = v.atoms.lead.length := by
    rw [Variant.mem_withLeadIn, List.mem_filter, Variant.isLiteral_iff] at hv
    refine ⟨hv.1.2, ?_⟩
    rw [v.width_eq, hv.1.2]
    rfl
  unfold variantsAt
  rw [List.pairwise_append]
  refine ⟨pairwise_completedAt wide nodup hk, ?_, fun v hv v' hv' => ?_⟩
  · have hleads := Variant.pairwise_withLeadIn nodup (·.isLiteral) (between kept 0 (k + 1))
    refine hleads.imp_of_mem fun {v v'} hv hv' hlead => ?_
    obtain ⟨htail, hwidth⟩ := hliteral hv
    obtain ⟨htail', hwidth'⟩ := hliteral hv'
    rw [Outranks, if_neg (not_not.mpr htail), hwidth, hwidth']
    exact ⟨htail', hlead⟩
  · have hforks := ((mem_completedAt_iff wide hk).mp hv).2.1
    rw [Outranks, if_pos hforks]
    exact fun h => absurd (hliteral hv').1 h

/-! Reports -/

/-- What a variant that is found at an index is reported as, if it is. -/
def report? (a : Automaton) (terms : List Term) (kept : List Mapped) (whitelisted : IntervalSet)
    (k : Nat) (v : Variant) : Option Report := do
  let m ← kept[k]?
  let found ← match? whitelisted (a.recentAt kept (k + 1)) m.site v
  let (t, e) ← (Term.expansions terms)[a.variants.idxOf v]?
  return ⟨a.variants.idxOf v, t, e, k + 1 - v.width, k, found⟩

/-- The reports of an index. -/
def reportsAt (a : Automaton) (terms : List Term) (kept : List Mapped)
    (whitelisted : IntervalSet) (k : Nat) : List Report :=
  (a.variantsAt kept k).filterMap (a.report? terms kept whitelisted k)

theorem nodup_variants (built : build o = .ok a) : a.variants.Nodup := by
  rw [(builtFrom built).variants_eq]
  exact Variant.nodup_ofTerms (builtFrom built).valid

theorem getElem?_variants (built : build o = .ok a) (n : Nat) :
    a.variants[n]? = (Term.expansions o.terms)[n]?.map fun x => Variant.ofExpansion x.1 x.2 := by
  rw [(builtFrom built).variants_eq, Variant.ofTerms_eq, List.getElem?_map]

/-- A variant has the number of its expansion. -/
theorem exists_expansion (built : build o = .ok a) {v : Variant} (hv : v ∈ a.variants) :
    ∃ t e, (Term.expansions o.terms)[a.variants.idxOf v]? = some (t, e) ∧
      Variant.ofExpansion t e = v := by
  have hnumber := List.getElem?_idxOf hv
  rw [getElem?_variants built, Option.map_eq_some_iff] at hnumber
  obtain ⟨⟨t, e⟩, hexpansion, hv⟩ := hnumber
  exact ⟨t, e, hexpansion, hv⟩

theorem idxOf_ofExpansion (built : build o = .ok a) {n : Nat} {t : Term} {e : Expansion}
    (h : (Term.expansions o.terms)[n]? = some (t, e)) :
    Variant.ofExpansion t e ∈ a.variants ∧ a.variants.idxOf (Variant.ofExpansion t e) = n := by
  have hnumber : a.variants[n]? = some (Variant.ofExpansion t e) := by
    rw [getElem?_variants built, h, Option.map_some]
  obtain ⟨hn, heq⟩ := List.getElem?_eq_some_iff.mp hnumber
  refine ⟨List.mem_of_getElem? hnumber, ?_⟩
  rw [← heq, (nodup_variants built).idxOf_getElem]

/-- The reports of an index are those that are due there, each for the variant it is about. -/
theorem report?_iff (built : build o = .ok a) (wide : ∀ t ∈ o.terms, t.NeverEmpty)
    {text : List Char} {k : Nat} (hk : k < (a.pipeline.apply text).length) {v : Variant}
    {r : Report} :
    v ∈ a.variantsAt (a.pipeline.apply text) k ∧
        a.report? o.terms (a.pipeline.apply text) (a.whitelist.scan text) k v = some r ↔
      r.IsDue o.terms text (a.pipeline.apply text) (a.whitelist.scan text).toList ∧ r.last = k ∧
        Variant.ofExpansion r.term r.expansion = v := by
  have hfound (m : Match) : v ∈ a.variantsAt (a.pipeline.apply text) k ∧
      match? (a.whitelist.scan text) (a.recentAt (a.pipeline.apply text) (k + 1))
        (a.pipeline.apply text)[k].site v = some m ↔ _ :=
    variant_found_iff (builtFrom built).sound (wide_of_build built wide) (a.whitelist.scan text) hk
  have hreport : a.report? o.terms (a.pipeline.apply text) (a.whitelist.scan text) k v = some r ↔
      ∃ m, match? (a.whitelist.scan text) (a.recentAt (a.pipeline.apply text) (k + 1))
          (a.pipeline.apply text)[k].site v = some m ∧
        ∃ t e, (Term.expansions o.terms)[a.variants.idxOf v]? = some (t, e) ∧
          ⟨a.variants.idxOf v, t, e, k + 1 - v.width, k, m⟩ = r := by
    simp [report?, List.getElem?_eq_getElem hk, Option.bind_eq_some_iff]
  rw [hreport]
  constructor
  · rintro ⟨hv, m, hmatch, t, e, hnumber, rfl⟩
    obtain ⟨hv, i, hi, hstands, hopens, hcloses, hspans, rfl⟩ := (hfound m).mp ⟨hv, hmatch⟩
    obtain ⟨t', e', hnumber', rfl⟩ := exists_expansion built hv
    obtain ⟨rfl, rfl⟩ : t' = t ∧ e' = e := by simpa [hnumber'] using hnumber
    obtain ⟨ht, he⟩ := Term.mem_expansions_iff.mp (List.mem_of_getElem? hnumber)
    obtain rfl : k + 1 - (Variant.ofExpansion t' e').width = i := by
      have hlast := hstands.1
      omega
    rw [Whitelist.not_anyContains_scan_iff] at hspans
    have hoccurs := (occursAt_iff he (wide t' ht e' he) hi hk).mpr ⟨hstands, hopens, hcloses, rfl⟩
    exact ⟨⟨hnumber, hoccurs, hspans⟩, rfl, rfl⟩
  · rintro ⟨hdue, rfl, rfl⟩
    obtain ⟨hv, hidx⟩ := idxOf_ofExpansion built hdue.numbered
    obtain ⟨ht, he⟩ := Term.mem_expansions_iff.mp (List.mem_of_getElem? hdue.numbered)
    have hle := hdue.occurs.first_le_last
    have hwidth := hdue.occurs.width_eq
    have hi : r.first < (a.pipeline.apply text).length := by omega
    obtain ⟨hstands, hopens, hcloses, hmatch⟩ :=
      (occursAt_iff he (wide r.term ht r.expansion he) hi hk).mp hdue.occurs
    have hspans := hdue.allowed
    rw [← Whitelist.not_anyContains_scan_iff] at hspans
    obtain ⟨hv, hm⟩ := (hfound r.found).mpr
      ⟨hv, r.first, hi, hstands, hopens, hcloses, by rwa [← hmatch] at hspans, hmatch⟩
    refine ⟨hv, r.found, hm, r.term, r.expansion, by rw [hidx, hdue.numbered], ?_⟩
    have hfirst : r.last + 1 - (Variant.ofExpansion r.term r.expansion).width = r.first := by
      have hlast := hstands.1
      omega
    rw [hidx, hfirst]

theorem mem_reportsAt_iff (built : build o = .ok a) (wide : ∀ t ∈ o.terms, t.NeverEmpty)
    {text : List Char} {k : Nat} (hk : k < (a.pipeline.apply text).length) {r : Report} :
    r ∈ a.reportsAt o.terms (a.pipeline.apply text) (a.whitelist.scan text) k ↔
      r.IsDue o.terms text (a.pipeline.apply text) (a.whitelist.scan text).toList ∧ r.last = k := by
  simp only [reportsAt, List.mem_filterMap, report?_iff built wide hk, exists_and_left, exists_eq',
    and_true]

end Automaton

/-! The order of reports -/

namespace Report

variable {terms : List Term} {text : List Char} {kept : List Mapped} {whitelisted : List Interval}
  {r r' : Report}

/-- What ends at the same index ends at the same place. -/
theorem IsDue.last_eq_last (h : r.IsDue terms text kept whitelisted)
    (h' : r'.IsDue terms text kept whitelisted) (heq : r.last = r'.last) :
    r.found.last = r'.found.last := by
  have hlast := h.occurs.last_eq
  rw [heq, h'.occurs.last_eq, Option.some.injEq] at hlast
  exact hlast.symm

/-- What ends at a later index ends at a later place. -/
theorem IsDue.last_lt_last {p : Pipeline} (h : r.IsDue terms text (p.apply text) whitelisted)
    (h' : r'.IsDue terms text (p.apply text) whitelisted) (hlt : r.last < r'.last) :
    r.found.last < r'.found.last := by
  obtain ⟨hr, hlast⟩ := h.occurs.getElem_last
  obtain ⟨hr', hlast'⟩ := h'.occurs.getElem_last
  have hapart := Pipeline.last_lt_first hr hr' hlt
  have hspan := site_first_le_last (Pipeline.site_mem_sites hr')
  omega

/-- A longer tail that ends at the same index has its first wildcard earlier. -/
theorem IsDue.outranksAtEnd {o : Options} {a : Automaton} (built : Automaton.build o = .ok a)
    (h : r.IsDue o.terms text kept whitelisted) (h' : r'.IsDue o.terms text kept whitelisted)
    (hlast : r.last = r'.last) (houtranks : a.Outranks (Variant.ofExpansion r.term r.expansion)
      (Variant.ofExpansion r'.term r'.expansion)) : r.OutranksAtEnd r' := by
  have hle := h.occurs.first_le_last
  have hle' := h'.occurs.first_le_last
  have hwidth := h.occurs.width_eq
  have hwidth' := h'.occurs.width_eq
  have hsplit := (Variant.ofExpansion r.term r.expansion).width_eq
  have hsplit' := (Variant.ofExpansion r'.term r'.expansion).width_eq
  simp only [Variant.ofExpansion, Variant.width] at hsplit hsplit'
  rw [Automaton.Outranks, (Automaton.idxOf_ofExpansion built h.numbered).2,
    (Automaton.idxOf_ofExpansion built h'.numbered).2] at houtranks
  simp only [Variant.ofExpansion, Variant.width, ← wildcard_mem_iff] at houtranks
  unfold OutranksAtEnd wildcardIndex
  split_ifs at houtranks ⊢
  · intro hforks
    have := houtranks hforks
    omega
  · obtain ⟨htail, horder⟩ := houtranks
    exact ⟨fun hforks => wildcard_mem_iff.mp hforks htail, horder⟩

end Report

namespace Automaton

variable {o : Options} {a : Automaton}

theorem pairwise_reportsAt (built : build o = .ok a) (wide : ∀ t ∈ o.terms, t.NeverEmpty)
    {text : List Char} {k : Nat} (hk : k < (a.pipeline.apply text).length) :
    (a.reportsAt o.terms (a.pipeline.apply text) (a.whitelist.scan text) k).Pairwise
      Report.Precedes := by
  have hvariants := pairwise_variantsAt (wide_of_build built wide) (nodup_variants built) hk
  unfold reportsAt
  rw [List.pairwise_filterMap]
  refine hvariants.imp_of_mem fun {v v'} hv hv' houtranks r hr r' hr' => ?_
  obtain ⟨hdue, hlast, rfl⟩ := (report?_iff built wide hk).mp ⟨hv, hr⟩
  obtain ⟨hdue', hlast', rfl⟩ := (report?_iff built wide hk).mp ⟨hv', hr'⟩
  have hsame : r.last = r'.last := hlast.trans hlast'.symm
  exact .inr ⟨hdue.last_eq_last hdue' hsame, hdue.outranksAtEnd built hdue' hsame houtranks⟩

/-- What is found at an index are the matches reported there, each at its first place. -/
theorem foundAt_eq (built : build o = .ok a) (wide : ∀ t ∈ o.terms, t.NeverEmpty)
    {text : List Char} {k : Nat} (hk : k < (a.pipeline.apply text).length) :
    a.foundAt (a.pipeline.apply text) (a.whitelist.scan text) k =
      ((a.reportsAt o.terms (a.pipeline.apply text) (a.whitelist.scan text) k).map
        Report.found).eraseDups := by
  rw [foundAt, List.getElem?_eq_getElem hk, reportsAt, List.map_filterMap]
  dsimp only
  congr 1
  refine List.filterMap_congr fun v hv => ?_
  have hmem := ((mem_variantsAt_iff (wide_of_build built wide) hk).mp hv).1
  obtain ⟨t, e, hnumber, -⟩ := exists_expansion built hmem
  rw [report?, List.getElem?_eq_getElem hk]
  cases hmatch : match? (a.whitelist.scan text) (a.recentAt (a.pipeline.apply text) (k + 1))
      (a.pipeline.apply text)[k].site v <;> simp [hmatch, hnumber]

theorem pairwise_found (a : Automaton) (p : Pipeline) (text : List Char)
    (whitelisted : IntervalSet) :
    ((List.range (p.apply text).length).flatMap (a.foundAt (p.apply text) whitelisted)).Pairwise
      fun m m' => m.last ≤ m'.last := by
  rw [List.pairwise_flatMap]
  constructor
  · intro k hk
    have hk := List.mem_range.mp hk
    refine List.pairwise_of_forall_mem_list fun m hm m' hm' => ?_
    rw [last_eq_of_mem_foundAt hk hm, last_eq_of_mem_foundAt hk hm']
  · refine List.pairwise_lt_range.imp_of_mem fun {i j} hi hj hij m hm m' hm' => ?_
    exact (last_lt_of_mem_foundAt (List.mem_range.mp hi) (List.mem_range.mp hj) hij hm hm').le

/-- A scan that succeeds gives its matches in the order of what is to be reported, each at the
first place where it is due. -/
theorem order_exact (built : build o = .ok a) (wide : ∀ t ∈ o.terms, t.NeverEmpty)
    {input : String} {found : List Match} (h : a.allMatches input = .ok found) :
    found.Pairwise (fun m m' => m.last ≤ m'.last) ∧
      ∃ reports : List Report,
        (∀ r, r ∈ reports ↔ r.IsDue o.terms input.toList
          (o.blacklistPipeline.apply input.toList) (a.whitelist.scan input.toList).toList) ∧
        reports.Pairwise Report.Precedes ∧
        found = (reports.map Report.found).eraseDups := by
  obtain ⟨-, rfl⟩ := (allMatches_eq_ok_iff (builtFrom built).sound).mp h
  rw [← (builtFrom built).pipeline_eq]
  have hlater {i j : Nat} (hi : i ∈ List.range (a.pipeline.apply input.toList).length)
      (hj : j ∈ List.range (a.pipeline.apply input.toList).length) (hij : i < j) {r r' : Report}
      (hr : r ∈ a.reportsAt o.terms (a.pipeline.apply input.toList)
        (a.whitelist.scan input.toList) i)
      (hr' : r' ∈ a.reportsAt o.terms (a.pipeline.apply input.toList)
        (a.whitelist.scan input.toList) j) : r.found.last < r'.found.last := by
    obtain ⟨hdue, rfl⟩ := (mem_reportsAt_iff built wide (List.mem_range.mp hi)).mp hr
    obtain ⟨hdue', rfl⟩ := (mem_reportsAt_iff built wide (List.mem_range.mp hj)).mp hr'
    exact hdue.last_lt_last hdue' hij
  refine ⟨a.pairwise_found _ _ _, (List.range (a.pipeline.apply input.toList).length).flatMap
    (a.reportsAt o.terms (a.pipeline.apply input.toList) (a.whitelist.scan input.toList)),
    fun r => ?_, ?_, ?_⟩
  · rw [List.mem_flatMap]
    constructor
    · intro ⟨k, hk, hr⟩
      exact ((mem_reportsAt_iff built wide (List.mem_range.mp hk)).mp hr).1
    · intro hdue
      have hlast := hdue.occurs.lt_length
      exact ⟨r.last, List.mem_range.mpr hlast,
        (mem_reportsAt_iff built wide hlast).mpr ⟨hdue, rfl⟩⟩
  · rw [List.pairwise_flatMap]
    refine ⟨fun k hk => pairwise_reportsAt built wide (List.mem_range.mp hk), ?_⟩
    exact List.pairwise_lt_range.imp_of_mem fun {i j} hi hj hij r hr r' hr' =>
      .inl (hlater hi hj hij hr hr')
  · rw [List.map_flatMap, eraseDups_flatMap]
    · exact List.flatMap_congr fun k hk => foundAt_eq built wide (List.mem_range.mp hk)
    · refine List.pairwise_lt_range.imp_of_mem fun {i j} hi hj hij m hm hm' => ?_
      obtain ⟨r, hr, rfl⟩ := List.mem_map.mp hm
      obtain ⟨r', hr', heq⟩ := List.mem_map.mp hm'
      have hlt := hlater hi hj hij hr hr'
      rw [heq] at hlt
      exact Nat.lt_irrefl _ hlt

/-! A sample -/

/-- Terms of which six expansions occur up to the last character of a text of three. -/
def orderOptions : Options where
  terms := [⟨1, ⟨false, false, [.one (.literal ['a']), .optional (.literal ['b']),
      .optional .wildcard]⟩⟩,
    ⟨2, ⟨false, false, [.one (.literal ['b']), .one .wildcard]⟩⟩,
    ⟨3, ⟨false, false, [.one .wildcard, .one (.literal ['c'])]⟩⟩,
    ⟨4, ⟨false, false, [.one (.literal ['c'])]⟩⟩,
    ⟨5, ⟨false, false, [.one (.literal ['a', 'b', 'c'])]⟩⟩,
    ⟨6, ⟨false, false, [.one (.literal ['b']), .one .wildcard]⟩⟩]
  whitelist := []
  blacklistPipeline := .identity
  whitelistPipeline := .identity
  limit := none

/-- The automaton of the sample. -/
def orderAutomaton : Automaton :=
  ofVariants [⟨1, false, false, [.literal ['a']]⟩, ⟨1, false, false, [.literal ['a', 'b']]⟩,
      ⟨1, false, false, [.literal ['a'], .wildcard]⟩,
      ⟨1, false, false, [.literal ['a', 'b'], .wildcard]⟩,
      ⟨2, false, false, [.literal ['b'], .wildcard]⟩,
      ⟨3, false, false, [.wildcard, .literal ['c']]⟩, ⟨4, false, false, [.literal ['c']]⟩,
      ⟨5, false, false, [.literal ['a', 'b', 'c']]⟩,
      ⟨6, false, false, [.literal ['b'], .wildcard]⟩]
    (.ofWords [] .identity) .identity defaultLimit

theorem build_orderOptions : build orderOptions = .ok orderAutomaton := by
  have hvariants : orderOptions.terms.flatMap Variant.ofTerm = orderAutomaton.variants := by
    simp only [orderOptions, List.flatMap_cons, List.flatMap_nil, Variant.ofTerm_eq]
    rfl
  refine build_eq_ok_iff.mpr ⟨rfl, _, rfl, ?_⟩
  rw [hvariants]
  rfl

/-- Two expansions of the first term give the same match at the second character, which is reported
once. -/
theorem order_exact_sample :
    let a := orderAutomaton
    let text := "abc".toList
    let found : List Match := [⟨1, 1, 0, 0⟩, ⟨1, 2, 0, 1⟩, ⟨3, 2, 1, 2⟩, ⟨1, 3, 0, 2⟩,
      ⟨2, 2, 1, 2⟩, ⟨6, 2, 1, 2⟩, ⟨5, 3, 0, 2⟩, ⟨4, 1, 2, 2⟩]
    a.allMatches "abc" = .ok found ∧ found.Pairwise (fun m m' => m.last ≤ m'.last) ∧
      ∃ reports : List Report,
        (∀ r, r ∈ reports ↔ r.IsDue orderOptions.terms text
          (orderOptions.blacklistPipeline.apply text) (a.whitelist.scan text).toList) ∧
        reports.Pairwise Report.Precedes ∧ found = (reports.map Report.found).eraseDups := by
  intro a text found
  have hfound : a.allMatches "abc" = .ok found := by decide +kernel
  have wide : ∀ t ∈ orderOptions.terms, t.NeverEmpty := by
    simp only [orderOptions, Term.NeverEmpty]
    decide
  exact ⟨hfound, order_exact build_orderOptions wide hfound⟩

end Automaton

end TermScan
