import TermScan.Proofs.Automaton.Cursor
import TermScan.Proofs.Automaton.Exactness

/-!
# The limit

The walks under way at an index are counted by what they stand for: an expansion with wildcards
whose lead has been read, whose tail has not been read to its end, and that fits so far. A scan
fails at the first index at which they are too many, and what ends before is found all the same.
-/
namespace TermScan

namespace Term

/-- An expansion that starts at index `i` has its lead before index `k`, ends at index `k` or
later, and fits what is kept between them; and a boundary is where the term asks for one at its
start. -/
def UnderWay (t : Term) (e : Expansion) (text : List Char) (kept : List Mapped) (i k : Nat) :
    Prop :=
  i + e.lead.length ≤ k ∧ k < i + e.width ∧ fits e.symbols (between kept i k) ∧
    (t.pattern.startBoundary →
      ¬(kept[i]?.bind fun m => charBefore? text m.site.span.first).any isWordChar)

instance (t : Term) (e : Expansion) (text : List Char) (kept : List Mapped) (i k : Nat) :
    Decidable (t.UnderWay e text kept i k) := inferInstanceAs (Decidable (_ ∧ _))

/-- The expansions of a term in which a wildcard stands, each once. -/
def forked (t : Term) : List Expansion :=
  (expand t.pattern.nodes).eraseDups.filter (.wildcard ∈ ·)

/-- The number of expansions with wildcards, together with where they start, that are under way at
an index. Equal expansions count once for each term. -/
def load (terms : List Term) (text : List Char) (kept : List Mapped) (k : Nat) : Nat :=
  (terms.map fun t => (t.forked.map fun e =>
    (List.range (k + 1)).countP fun i => t.UnderWay e text kept i k).sum).sum

/-- The number of expansions. Equal ones count once for each term. -/
def patternCount (terms : List Term) : Nat :=
  (terms.map fun t => (expand t.pattern.nodes).eraseDups.length).sum

end Term

/-! Counting -/

/-- Counting pairs by rows or by columns. -/
theorem sum_map_countP_comm {α β : Type} (p : α → β → Bool) (xs : List α) (ys : List β) :
    (xs.map fun x => ys.countP (p x)).sum = (ys.map fun y => xs.countP (p · y)).sum := by
  induction ys with
  | nil => simp
  | cons y ys ih =>
    have hrow : (xs.map fun x => (y :: ys).countP (p x)).sum =
        (xs.map fun x => ys.countP (p x)).sum + xs.countP (p · y) := by
      clear ih
      induction xs with
      | nil => simp
      | cons x xs ih =>
        simp only [List.map_cons, List.sum_cons, List.countP_cons] at ih ⊢
        omega
    rw [hrow, ih, List.map_cons, List.sum_cons, Nat.add_comm]

/-- What is counted does not change when it is counted `d` places earlier. -/
theorem countP_range_shift {p q : Nat → Bool} {n d : Nat}
    (hp : ∀ s < n, p s ↔ d ≤ s ∧ q (s - d)) (hq : ∀ i < n, q i → i + d < n) :
    (List.range n).countP p = (List.range n).countP q := by
  have hperm : ((List.range n).filter p).Perm (((List.range n).filter q).map (· + d)) := by
    refine (List.perm_ext_iff_of_nodup (List.nodup_range.filter _)
      ((List.nodup_range.filter _).map fun _ _ h => Nat.add_right_cancel h)).mpr fun s => ?_
    simp only [List.mem_filter, List.mem_map, List.mem_range]
    constructor
    · rintro ⟨hs, h⟩
      obtain ⟨hle, h⟩ := (hp s hs).mp h
      exact ⟨s - d, ⟨by omega, h⟩, by omega⟩
    · rintro ⟨i, ⟨hi, h⟩, rfl⟩
      have := hq i hi h
      exact ⟨this, (hp _ this).mpr ⟨by omega, by rwa [Nat.add_sub_cancel]⟩⟩
  rw [List.countP_eq_length_filter, hperm.length_eq, List.length_map,
    ← List.countP_eq_length_filter]

theorem sum_map_flatMap {α β : Type} (f : α → List β) (g : β → Nat) (items : List α) :
    ((items.flatMap f).map g).sum = (items.map fun x => ((f x).map g).sum).sum := by
  induction items with
  | nil => rfl
  | cons x items ih => simp [ih]

/-! Walks under way -/

theorem wildcard_mem_iff {e : Expansion} : .wildcard ∈ e ↔ e.tail ≠ [] := by
  induction e with
  | nil => simp [Expansion.tail]
  | cons a e ih => cases a <;> simp [Expansion.tail, ih]

/-- A walk of a variant starts at index `s` and is under way at index `k`. -/
def Variant.walks (v : Variant) (kept : List Mapped) (k s : Nat) : Bool :=
  v.atoms.lead <:+ between kept 0 s &&
    Automaton.opens kept v (s - v.atoms.lead.length) &&
    ((⟨v, v.atoms.tail⟩ : Walk).along (between kept s k)).isSome

namespace Automaton

variable {o : Options} {a : Automaton}

theorem loadAt_eq_sum (a : Automaton) (kept : List Mapped) (k : Nat) :
    a.loadAt kept k = ((a.variants.filter (!·.isLiteral)).map fun v =>
      (List.range (k + 1)).countP (v.walks kept k)).sum := by
  have hstart (s : Nat) : ((a.spawned kept s).filterMap (·.along (between kept s k))).length =
      (a.variants.filter (!·.isLiteral)).countP fun v => v.walks kept k s := by
    rw [spawned, List.filterMap_map, List.length_filterMap_eq_countP, List.countP_filter,
      (Variant.perm_withLeadIn _ _).countP_eq, List.countP_filter]
    refine List.countP_congr fun v _ => ?_
    simp only [Variant.walks, Function.comp_apply, Bool.and_eq_true, decide_eq_true_eq]
    tauto
  rw [loadAt, walksAt, List.length_flatMap]
  simp only [hstart]
  exact sum_map_countP_comm _ _ _

/-- Counted by where the lead starts, the walks of a variant are where it is under way. -/
theorem countP_walks {v : Variant} (hfilled : v.atoms.Filled) (hforks : v.atoms.tail ≠ [])
    {kept : List Mapped} {k : Nat} (hk : k < kept.length) :
    (List.range (k + 1)).countP (v.walks kept k) =
      (List.range (k + 1)).countP fun i => i + v.atoms.lead.length ≤ k ∧ k < i + v.width ∧
        fits v.atoms.symbols (between kept i k) ∧ opens kept v i := by
  have hwidth := v.width_eq
  have halong (s : Nat) : ((⟨v, v.atoms.tail⟩ : Walk).along (between kept s k)).isSome ↔
      fits v.atoms.tail.symbols (between kept s k) ∧ k - s < v.atoms.tail.width := by
    rw [← length_between kept hk.le, ← Expansion.follow_eq_proceed_iff hfilled.tail hforks,
      Walk.along]
    cases v.atoms.tail.follow (between kept s k) <;> simp
  refine countP_range_shift (d := v.atoms.lead.length) (fun s hs => ?_) fun i _ h => ?_
  · simp only [Variant.walks, Bool.and_eq_true, decide_eq_true_eq, halong]
    constructor
    · rintro ⟨⟨hlead, hopens⟩, hfits, hlt⟩
      have hle := ((suffix_between_iff kept (by omega) _).mp hlead).1
      have hindex := Nat.sub_add_cancel hle
      refine ⟨hle, by omega, by omega, ?_, hopens⟩
      rw [fits_between_iff (by omega) hk.le, hindex]
      exact ⟨hlead, hfits⟩
    · rintro ⟨hle, hlead, hlt, hfits, hopens⟩
      have hindex := Nat.sub_add_cancel hle
      rw [fits_between_iff (by omega) hk.le, hindex] at hfits
      exact ⟨⟨hfits.1, hopens⟩, hfits.2, by omega⟩
  · rw [decide_eq_true_eq] at h
    omega

/-- The number of walks under way is the load. -/
theorem loadAt_eq_load (built : build o = .ok a) {text : List Char} {k : Nat}
    (hk : k < (a.pipeline.apply text).length) :
    a.loadAt (a.pipeline.apply text) k = Term.load o.terms text (a.pipeline.apply text) k := by
  have hforked (t : Term) : (Variant.ofTerm t).filter (!·.isLiteral) =
      t.forked.map (Variant.ofExpansion t) := by
    rw [Variant.ofTerm_eq, List.filter_map, Term.forked]
    refine congrArg _ (List.filter_congr fun e _ => ?_)
    rw [Bool.eq_iff_iff, decide_eq_true_eq, wildcard_mem_iff]
    simp [Variant.isLiteral, Variant.ofExpansion]
  have hunder {t : Term} {e : Expansion} {i : Nat} (hi : i ≤ k) :
      opens (a.pipeline.apply text) (Variant.ofExpansion t e) i ↔
        (t.pattern.startBoundary → ¬((a.pipeline.apply text)[i]?.bind fun m =>
          charBefore? text m.site.span.first).any isWordChar) := by
    have hlt : i < (a.pipeline.apply text).length := by omega
    have hsite := Pipeline.site_mem_sites hlt
    rw [opens, List.getElem?_eq_getElem hlt, Option.any_some, Bool.or_eq_true,
      opensBoundary_iff hsite]
    cases hstart : t.pattern.startBoundary <;> simp [Variant.ofExpansion, hstart]
  rw [loadAt_eq_sum, (builtFrom built).variants_eq, List.filter_flatMap, sum_map_flatMap, Term.load]
  simp only [hforked, List.map_map]
  congr 2
  funext t
  congr 1
  refine List.map_congr_left fun e he => ?_
  obtain ⟨he, hwild⟩ := List.mem_filter.mp he
  rw [List.mem_eraseDups] at he
  rw [decide_eq_true_eq, wildcard_mem_iff] at hwild
  rw [Function.comp_apply, countP_walks (filled_of_mem_expand he) hwild hk]
  refine List.countP_congr fun i hi => ?_
  have hle : i ≤ k := Nat.lt_succ_iff.mp (List.mem_range.mp hi)
  rw [decide_eq_true_eq, decide_eq_true_eq, hunder hle]
  rfl

/-! Failure -/

theorem variantCount_eq (built : build o = .ok a) : a.variantCount = Term.patternCount o.terms := by
  rw [variantCount, (builtFrom built).variants_eq, List.length_flatMap, Term.patternCount]
  simp only [Variant.ofTerm_eq, List.length_map]

theorem isPrefix_range {m n : Nat} (h : m ≤ n) : List.range m <+: List.range n := by
  obtain ⟨k, rfl⟩ := Nat.exists_eq_add_of_le h
  rw [List.range_add]
  exact List.prefix_append _ _

/-- A limit does not change what is found at an index. -/
theorem prefix_of_limit (sound : a.Sound) {input : String} {found : List Match} {limit n : Nat}
    (hn : n ≤ (a.pipeline.apply input.toList).length)
    (h : ({ a with limit } : Automaton).allMatches input = .ok found) :
    (List.range n).flatMap
      (a.foundAt (a.pipeline.apply input.toList) (a.whitelist.scan input.toList)) <+: found := by
  have sound' : ({ a with limit } : Automaton).Sound := ⟨sound.1, sound.2, sound.3, sound.4⟩
  obtain ⟨-, rfl⟩ := (allMatches_eq_ok_iff sound').mp h
  exact (isPrefix_range hn).flatMap _

/-- A scan exceeds its limit where the load does. -/
theorem loadAt_le_limit_iff (built : build o = .ok a) {text : List Char} {k : Nat}
    (hk : k < (a.pipeline.apply text).length) :
    a.loadAt (a.pipeline.apply text) k ≤ a.limit ↔
      Term.load o.terms text (a.pipeline.apply text) k ≤ o.limit.getD defaultLimit := by
  rw [loadAt_eq_load built hk, (builtFrom built).limit_eq]

theorem exists_error_iff (built : build o = .ok a) (input : String) :
    (∃ e, a.allMatches input = .error e) ↔ ∃ k < (a.pipeline.apply input.toList).length,
      o.limit.getD defaultLimit <
        Term.load o.terms input.toList (a.pipeline.apply input.toList) k := by
  have sound := (builtFrom built).sound
  rw [allMatches, scan]
  rcases a.loadAt_cases (a.pipeline.apply input.toList) with hload | ⟨n, hn, hexceeds, hload⟩
  · rw [a.scanFrom_of_le _ sound input _ hload]
    simp only [reduceCtorEq, exists_false, false_iff, not_exists, not_and, Nat.not_lt]
    exact fun k hk => (loadAt_le_limit_iff built hk).mp (hload k hk)
  · rw [a.scanFrom_of_lt sound input _ hn hload hexceeds]
    have := (loadAt_le_limit_iff built hn).not.mp (Nat.not_le.mpr hexceeds)
    exact ⟨fun _ => ⟨n, hn, Nat.not_le.mp this⟩, fun _ => ⟨_, rfl⟩⟩

/-- At the first index where the load exceeds the limit, the scan ends with its failure. -/
theorem scan_of_load (built : build o = .ok a) (input : String) {n : Nat}
    (hn : n < (a.pipeline.apply input.toList).length)
    (hexceeds : o.limit.getD defaultLimit <
      Term.load o.terms input.toList (a.pipeline.apply input.toList) n)
    (hload : ∀ k < n, Term.load o.terms input.toList (a.pipeline.apply input.toList) k ≤
      o.limit.getD defaultLimit) :
    a.scan input =
      ((List.range n).flatMap
        (a.foundAt (a.pipeline.apply input.toList) (a.whitelist.scan input.toList)),
      some (.walkLimit input (a.pipeline.apply input.toList)[n].site.span.first
        (Term.patternCount o.terms) (o.limit.getD defaultLimit))) := by
  have sound := (builtFrom built).sound
  have hlimit := (builtFrom built).limit_eq
  have hbefore : ∀ k < n, a.loadAt (a.pipeline.apply input.toList) k ≤ a.limit := fun k hk =>
    (loadAt_le_limit_iff built (hk.trans hn)).mpr (hload k hk)
  have hat : a.limit < a.loadAt (a.pipeline.apply input.toList) n :=
    Nat.not_le.mp ((loadAt_le_limit_iff built hn).not.mpr (Nat.not_le.mpr hexceeds))
  rw [scan, a.scanFrom_of_lt sound input _ hn hbefore hat, limitError, variantCount_eq built,
    hlimit]

/-- A scan fails if and only if the load exceeds the limit at some index, and it says at which one
it did first. A cursor hands out the occurrences that end before this index and that no whitelisted
span contains, as a scan does whose limit is high enough; then the failure, then nothing. -/
theorem limit_exact (built : build o = .ok a) (wide : ∀ t ∈ o.terms, t.NeverEmpty)
    (input : String) :
    let text := input.toList
    let kept := o.blacklistPipeline.apply text
    let limit := o.limit.getD defaultLimit
    ((∃ e, a.allMatches input = .error e) ↔
      ∃ k < kept.length, limit < Term.load o.terms text kept k) ∧
    ∀ k (hk : k < kept.length), limit < Term.load o.terms text kept k →
      (∀ j < k, Term.load o.terms text kept j ≤ limit) →
      let failure := Error.walkLimit input kept[k].site.span.first (Term.patternCount o.terms) limit
      a.allMatches input = .error failure ∧
      ∃ delivered : List Match, delivered.Nodup ∧
        (∀ m, m ∈ delivered ↔ Term.OccursBefore o.terms text kept k m ∧
          ∀ span ∈ (a.whitelist.scan text).toList, ¬span.contains ⟨m.first, m.last⟩) ∧
        (∀ higher found, ({ a with limit := higher } : Automaton).allMatches input = .ok found →
          delivered <+: found) ∧
        ∀ n, ((a.cursor input).take a n).1 = (results (delivered, some failure)).take n := by
  have sound := (builtFrom built).sound
  rw [← (builtFrom built).pipeline_eq]
  intro text kept limit
  refine ⟨exists_error_iff built input, ?_⟩
  intro k hk hexceeds hbefore failure
  have hscan := scan_of_load built input hk hexceeds hbefore
  refine ⟨by rw [allMatches, hscan],
    (List.range k).flatMap (a.foundAt kept (a.whitelist.scan text)),
    a.nodup_found _ _ _ hk.le, fun m => mem_found_iff built wide hk.le,
    fun higher found => prefix_of_limit sound hk.le, fun n => ?_⟩
  rw [((a.cursor input).take_spec n).1, Cursor.remaining_cursor, hscan]

/-- With no walk allowed, the scan of the sample fails behind the first lead of a fork. -/
theorem limit_exact_sample :
    let a := sampleAutomaton (some 0)
    let failure := Error.walkLimit "b-ab a" 3 3 0
    (∃ e, a.allMatches "b-ab a" = .error e) ∧ a.allMatches "b-ab a" = .error failure ∧
      ∃ delivered : List Match, delivered.Nodup ∧
        (∀ higher found, ({ a with limit := higher } : Automaton).allMatches "b-ab a" = .ok found →
          delivered <+: found) ∧
        ∀ n, ((a.cursor "b-ab a").take a n).1 = (results (delivered, some failure)).take n := by
  intro a failure
  obtain ⟨hfails, hfirst⟩ := limit_exact (build_sampleOptions (some 0))
    (neverEmpty_sampleOptions (some 0)) "b-ab a"
  obtain ⟨herror, delivered, hnodup, -, hprefix, htake⟩ :=
    hfirst 2 (by decide +kernel) (by decide +kernel) (by decide +kernel)
  exact ⟨hfails.mpr ⟨2, by decide +kernel, by decide +kernel⟩, herror, delivered, hnodup, hprefix,
    htake⟩

end Automaton

end TermScan
