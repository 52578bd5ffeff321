import Mathlib.Order.WellFounded
import TermScan.Proofs.Pattern.RoundTrip
import TermScan.Proofs.Regex.Optionals
import TermScan.Proofs.Whitelist
import TermScan.RegexCompile

/-!
# What a matcher accepts

Both matchers check the terms in order, and refuse the first one with a flaw for the first of its
flaws. That all nodes are optional is told from the nodes alone, yet says that some choice of
optionals leaves nothing: so no expansion of an accepted term is empty. Only then do phrases count.
-/
namespace TermScan

/-! Flaws -/

/-- What can be wrong with a term. -/
inductive Flaw
  | repeatedId
  | noNodes
  | allOptional
  deriving DecidableEq

namespace Flaw

/-- A term that stands behind others has the flaw. -/
def Applies (front : List Term) (t : Term) : Flaw → Prop
  | repeatedId => ∃ s ∈ front, s.id = t.id
  | noNodes => t.pattern.nodes = []
  | allOptional => ∀ n ∈ t.pattern.nodes, n.isOptional

instance (front : List Term) (t : Term) (flaw : Flaw) : Decidable (flaw.Applies front t) :=
  match flaw with
  | repeatedId => inferInstanceAs (Decidable (∃ s ∈ front, s.id = t.id))
  | noNodes => inferInstanceAs (Decidable (t.pattern.nodes = []))
  | allOptional => inferInstanceAs (Decidable (∀ n ∈ t.pattern.nodes, n.isOptional))

/-- The error that reports the flaw. -/
def error (t : Term) : Flaw → Error
  | repeatedId => .duplicateTermId t.id
  | noNodes => .emptyPattern t.id
  | allOptional => .matchesEmptyText t.id t.pattern.render

/-- The place of the flaw among those that are looked for. -/
def rank : Flaw → Nat
  | repeatedId => 0
  | noNodes => 1
  | allOptional => 2

/-- The flaw is the first one that a term behind others has. -/
structure Reported (front : List Term) (t : Term) (flaw : Flaw) : Prop where
  applies : flaw.Applies front t
  first : ∀ other : Flaw, other.rank < flaw.rank → ¬other.Applies front t

end Flaw

namespace Term

/-- No term has a flaw. -/
def Flawless (terms : List Term) : Prop :=
  ∀ front t rest, terms = front ++ t :: rest → ∀ flaw : Flaw, ¬flaw.Applies front t

/-- The term is the first one that has a flaw, and this flaw its first one. -/
def FirstFlaw (terms : List Term) (t : Term) (flaw : Flaw) : Prop :=
  ∃ front rest, terms = front ++ t :: rest ∧ Flawless front ∧ flaw.Reported front t

theorem error?_eq_some {front : List Term} {t : Term} {flaw : Flaw} (h : flaw.Reported front t) :
    t.error? (front.map Term.id).reverse = some (flaw.error t) := by
  have repeated : (front.map Term.id).reverse.contains t.id ↔ Flaw.repeatedId.Applies front t := by
    simp [Flaw.Applies]
  have empty : t.pattern.nodes.isEmpty ↔ Flaw.noNodes.Applies front t := List.isEmpty_iff
  have optional : t.pattern.canBeEmpty ↔ Flaw.allOptional.Applies front t := List.all_eq_true
  rw [error?]
  cases flaw with
  | repeatedId => rw [if_pos (repeated.mpr h.applies)]; rfl
  | noNodes =>
    have h₀ := h.first .repeatedId Nat.zero_lt_one
    rw [if_neg (mt repeated.mp h₀), if_pos (empty.mpr h.applies)]
    rfl
  | allOptional =>
    have h₀ := h.first .repeatedId Nat.zero_lt_two
    have h₁ := h.first .noNodes Nat.one_lt_two
    rw [if_neg (mt repeated.mp h₀), if_neg (mt empty.mp h₁), if_pos (optional.mpr h.applies)]
    rfl

theorem error?_eq_none {front : List Term} {t : Term} (h : ∀ flaw : Flaw, ¬flaw.Applies front t) :
    t.error? (front.map Term.id).reverse = none := by
  rw [error?, if_neg, if_neg, if_neg]
  · exact mt List.all_eq_true.mp (h .allOptional)
  · exact mt List.isEmpty_iff.mp (h .noNodes)
  · have := h .repeatedId
    simpa [Flaw.Applies] using this

/-! The check -/

/-- Behind terms that pass, the check goes on with their ids in mind. -/
theorem checkFrom_append {ids : List Int} {front : List Term}
    (h : (checkFrom ids front).2 = none) (rest : List Term) :
    (checkFrom ids (front ++ rest)).2 =
      (checkFrom ((front.map Term.id).reverse ++ ids) rest).2 := by
  induction front generalizing ids with
  | nil => rfl
  | cons t front ih =>
    rw [checkFrom] at h
    rw [List.cons_append, checkFrom]
    cases herror : t.error? ids with
    | some e => simp [herror] at h
    | none =>
      simp only [herror] at h
      simpa using ih h

theorem Flawless.of_append {front rest : List Term} (h : Flawless (front ++ rest)) :
    Flawless front := by
  rintro before t after rfl
  exact h before t (after ++ rest) (by simp)

theorem check_of_flawless {terms : List Term} (h : Flawless terms) : (check terms).2 = none := by
  induction terms using List.reverseRecOn with
  | nil => rfl
  | append_singleton front t ih =>
    rw [check, checkFrom_append (ih h.of_append), List.append_nil, checkFrom,
      error?_eq_none (h front t [] rfl)]
    rfl

theorem check_of_firstFlaw {terms : List Term} {t : Term} {flaw : Flaw}
    (h : FirstFlaw terms t flaw) : (check terms).2 = some (flaw.error t) := by
  obtain ⟨front, rest, rfl, flawless, reported⟩ := h
  rw [check, checkFrom_append (check_of_flawless flawless), List.append_nil, checkFrom,
    error?_eq_some reported]

theorem validate_of_flawless {terms : List Term} (h : Flawless terms) :
    validate terms = .ok () := by
  rw [validate, check_of_flawless h]

theorem validate_of_firstFlaw {terms : List Term} {t : Term} {flaw : Flaw}
    (h : FirstFlaw terms t flaw) : validate terms = .error (flaw.error t) := by
  rw [validate, check_of_firstFlaw h]

/-- Where there is a flaw, there is a first one. -/
theorem flawless_or_firstFlaw (terms : List Term) :
    Flawless terms ∨ ∃ t flaw, FirstFlaw terms t flaw := by
  induction terms using List.reverseRecOn with
  | nil => exact .inl fun front t rest h => by simp at h
  | append_singleton front t ih =>
    rcases ih with flawless | ⟨s, flaw, before, rest, rfl, flawless, reported⟩
    · by_cases hflaw : ∃ flaw : Flaw, flaw.Applies front t
      · obtain ⟨flaw, applies, least⟩ := WellFounded.has_min (measure Flaw.rank).wf
          { flaw : Flaw | flaw.Applies front t } hflaw
        exact .inr ⟨t, flaw, front, [], rfl, flawless, applies,
          fun other hlt happlies => least other happlies hlt⟩
      · refine .inl fun before s rest heq => ?_
        rcases List.eq_nil_or_concat rest with rfl | ⟨rest, u, rfl⟩
        · obtain ⟨rfl, hlast⟩ := List.append_inj' heq rfl
          obtain rfl := List.singleton_inj.mp hlast
          exact not_exists.mp hflaw
        · rw [List.concat_eq_append, ← List.cons_append, ← List.append_assoc] at heq
          obtain ⟨rfl, -⟩ := List.append_inj' heq rfl
          exact flawless before s rest rfl
    · exact .inr ⟨s, flaw, before, rest ++ [t], by simp, flawless, reported⟩

/-- Just the terms without a flaw pass. -/
theorem validate_eq_ok_iff {terms : List Term} : validate terms = .ok () ↔ Flawless terms := by
  refine ⟨fun h => ?_, validate_of_flawless⟩
  rcases flawless_or_firstFlaw terms with flawless | ⟨t, flaw, first⟩
  · exact flawless
  · rw [validate_of_firstFlaw first] at h
    contradiction

end Term

/-! Width -/

/-- A node that must occur leaves no expansion empty. -/
theorem width_pos_of_mem_expand {nodes : List Node} (filled : ∀ n ∈ nodes, n.filled)
    {e : Expansion} (he : e ∈ expand nodes) {n : Node} (hn : n ∈ nodes)
    (required : n.isOptional = false) : 0 < e.width := by
  induction nodes generalizing e with
  | nil => contradiction
  | cons m nodes ih =>
    obtain ⟨hm, hnodes⟩ := List.forall_mem_cons.mp filled
    cases m with
    | one atom =>
      obtain ⟨e, -, rfl⟩ := List.mem_map.mp he
      have hatom : 0 < atom.width := by
        cases atom with
        | wildcard => exact Nat.one_pos
        | literal chars => simpa [Node.filled, Atom.width, List.length_pos_iff] using hm
      rw [Expansion.width_push]
      omega
    | optional atom =>
      have hn : n ∈ nodes := (List.mem_cons.mp hn).resolve_left (by rintro rfl; contradiction)
      obtain ⟨e', he', hmem⟩ := List.mem_flatMap.mp he
      have hpos := ih hnodes he' hn
      rcases List.mem_pair.mp hmem with rfl | rfl
      · exact hpos
      · rw [Expansion.width_push]
        omega

theorem nil_mem_expand {nodes : List Node} (h : ∀ n ∈ nodes, n.isOptional) :
    [] ∈ expand nodes := by
  induction nodes with
  | nil => exact List.mem_singleton_self []
  | cons n nodes ih =>
    obtain ⟨hn, hnodes⟩ := List.forall_mem_cons.mp h
    cases n with
    | one atom => contradiction
    | optional atom => exact List.mem_flatMap.mpr ⟨[], ih hnodes, List.mem_cons_self⟩

/-- All nodes are optional if and only if some choice of them leaves nothing. -/
theorem Pattern.canBeEmpty_iff {p : Pattern} (filled : ∀ n ∈ p.nodes, n.filled) :
    p.canBeEmpty ↔ [] ∈ expand p.nodes := by
  rw [canBeEmpty, List.all_eq_true]
  refine ⟨nil_mem_expand, fun hnil n hn => ?_⟩
  by_contra hrequired
  exact absurd (width_pos_of_mem_expand filled hnil hn (by simpa using hrequired)) (Nat.lt_irrefl 0)

/-- What is parsed has no empty nodes. -/
theorem Pattern.filled_of_parse {source : String} {p : Pattern} (h : parse source = .ok p) :
    ∀ n ∈ p.nodes, n.filled := by
  cases hread : read source.toList with
  | error e => simp [parse, hread, Except.mapError] at h
  | ok q =>
    obtain rfl : q = p := by simpa [parse, hread, Except.mapError] using h
    exact (read_eq_ok_iff.mp hread).1.nodes.filled

theorem Term.Flawless.neverEmpty {terms : List Term} (h : Flawless terms) {t : Term}
    (ht : t ∈ terms) (filled : ∀ n ∈ t.pattern.nodes, n.filled) : t.NeverEmpty := by
  obtain ⟨front, rest, rfl⟩ := List.append_of_mem ht
  have hrequired := h front t rest rfl .allOptional
  simp only [Flaw.Applies, not_forall, Bool.not_eq_true] at hrequired
  obtain ⟨n, hn, hrequired⟩ := hrequired
  exact fun e he => width_pos_of_mem_expand filled he hn hrequired

/-! Phrases and expressions -/

theorem Whitelist.build_eq_error {phrases : List String} {p : Pipeline} {k : Nat}
    (hempty : (words phrases p)[k]? = some []) (least : ∀ j < k, (words phrases p)[j]? ≠ some []) :
    build phrases p = .error (.emptyWhitelistTerm k) := by
  obtain ⟨hk, hword⟩ := List.getElem?_eq_some_iff.mp hempty
  have hfind : (words phrases p).findIdx? List.isEmpty = some k := by
    refine List.findIdx?_eq_some_iff_getElem.mpr ⟨hk, by simp [hword], fun j hj h => ?_⟩
    refine least j hj (List.getElem?_eq_some_iff.mpr ⟨hj.trans hk, List.isEmpty_iff.mp ?_⟩)
    simpa using h
  simp only [build, hfind]

/-- The libraries refuse none of the terms. -/
def Compilers.Accept (c : Compilers) (terms : List Term) : Prop :=
  ∀ t ∈ terms, ∃ search, c.compile t.pattern = .ok search

theorem Engines.accept_compilers (engines : Engines) (terms : List Term) :
    engines.compilers.Accept terms := by
  intro t _
  rw [Compilers.compile]
  split_ifs
  · exact ⟨_, rfl⟩
  · exact ⟨_, rfl⟩

namespace RegexMatcher

variable {c : Compilers} {terms : List Term}

theorem exists_compileTerms (h : c.Accept terms) :
    ∃ compiled, compileTerms c terms = .ok compiled := by
  induction terms with
  | nil => exact ⟨[], rfl⟩
  | cons t terms ih =>
    obtain ⟨⟨search, hsearch⟩, hterms⟩ := List.forall_mem_cons.mp h
    obtain ⟨compiled, hcompiled⟩ := ih hterms
    exact ⟨(t.id, search) :: compiled, by rw [compileTerms, hsearch, hcompiled]; rfl⟩

/-- The first term whose expression is refused is reported. -/
theorem compileTerms_eq_error {front rest : List Term} {t : Term} {reason : String}
    (accepted : c.Accept front) (refused : c.compile t.pattern = .error reason) :
    compileTerms c (front ++ t :: rest) = .error (.invalidRegex t.id reason) := by
  induction front with
  | nil => rw [List.nil_append, compileTerms, refused]; rfl
  | cons s front ih =>
    obtain ⟨⟨search, hsearch⟩, hfront⟩ := List.forall_mem_cons.mp accepted
    rw [List.cons_append, compileTerms, hsearch, ih hfront]
    rfl

end RegexMatcher

/-! Both matchers -/

/-- A refused expression is reported before any phrase. -/
theorem RegexMatcher.buildWith_eq_error {c : Compilers} {o : Options}
    (flawless : Term.Flawless o.terms) {front rest : List Term} {t : Term} {reason : String}
    (hterms : o.terms = front ++ t :: rest) (accepted : c.Accept front)
    (refused : c.compile t.pattern = .error reason) :
    buildWith c o = .error (.invalidRegex t.id reason) := by
  rw [buildWith, Term.validate_of_flawless flawless, hterms,
    compileTerms_eq_error accepted refused]
  rfl

/-- Both matchers refuse the first term that has a flaw, each with the error of its first flaw.
Where no term has one, both refuse the first phrase of which the transformers leave nothing, and
where there is no such phrase either, both are built, as long as the libraries accept the
expressions; the first expression that they refuse is reported before any phrase. Then no expansion
of a term is empty, nor is a variant that the automaton looks for. -/
theorem Options.validation_exact (c : Compilers) (o : Options)
    (filled : ∀ t ∈ o.terms, ∀ n ∈ t.pattern.nodes, n.filled) :
    (Term.Flawless o.terms ∨ ∃ t flaw, Term.FirstFlaw o.terms t flaw) ∧
    (∀ t flaw, Term.FirstFlaw o.terms t flaw →
      Automaton.build o = .error (flaw.error t) ∧
      RegexMatcher.buildWith c o = .error (flaw.error t)) ∧
    (Term.Flawless o.terms →
      let words := Whitelist.words o.whitelist o.whitelistPipeline
      (∀ k, words[k]? = some [] → (∀ j < k, words[j]? ≠ some []) →
        Automaton.build o = .error (.emptyWhitelistTerm k) ∧
        (c.Accept o.terms → RegexMatcher.buildWith c o = .error (.emptyWhitelistTerm k))) ∧
      ([] ∉ words →
        (∃ a, Automaton.build o = .ok a ∧ ∀ v ∈ a.variants, 1 ≤ v.width) ∧
        ∃ r, RegexMatcher.build o = .ok r ∧
          (c.Accept o.terms → ∃ compiled, RegexMatcher.buildWith c o = .ok (r, compiled))) ∧
      (∀ front t rest reason, o.terms = front ++ t :: rest → c.Accept front →
        c.compile t.pattern = .error reason →
        RegexMatcher.buildWith c o = .error (.invalidRegex t.id reason)) ∧
      ∀ t ∈ o.terms, ∀ e ∈ expand t.pattern.nodes, 1 ≤ e.width) ∧
    (∀ t ∈ o.terms, t.pattern.canBeEmpty ↔ [] ∈ expand t.pattern.nodes) ∧
    ∀ source p, Pattern.parse source = .ok p → ∀ n ∈ p.nodes, n.filled := by
  refine ⟨Term.flawless_or_firstFlaw o.terms, fun t flaw h => ?_, fun flawless => ?_,
    fun t ht => Pattern.canBeEmpty_iff (filled t ht), fun source p h => ?_⟩
  · rw [Automaton.build, RegexMatcher.buildWith, Term.validate_of_firstFlaw h]
    exact ⟨rfl, rfl⟩
  · have hvalid := Term.validate_of_flawless flawless
    have wide : ∀ t ∈ o.terms, t.NeverEmpty := fun t ht => flawless.neverEmpty ht (filled t ht)
    intro words
    refine ⟨fun k hempty least => ?_, fun hwords => ?_, fun front t rest reason hterms accepted =>
      RegexMatcher.buildWith_eq_error flawless hterms accepted, wide⟩
    · have hphrases := Whitelist.build_eq_error hempty least
      refine ⟨?_, fun accept => ?_⟩
      · rw [Automaton.build, hvalid, hphrases]
        rfl
      · obtain ⟨compiled, hcompiled⟩ := RegexMatcher.exists_compileTerms accept
        rw [RegexMatcher.buildWith, hvalid, hcompiled, hphrases]
        rfl
    · have hphrases := Whitelist.build_eq_ok_iff.mpr ⟨hwords, rfl⟩
      refine ⟨⟨_, Automaton.build_eq_ok_iff.mpr ⟨hvalid, _, hphrases, rfl⟩, fun v hv => ?_⟩,
        ⟨o.terms, .ofWords words o.whitelistPipeline, o.blacklistPipeline⟩, ?_, fun accept => ?_⟩
      · obtain ⟨t, ht, e, he, rfl⟩ := Variant.mem_ofTerms_iff.mp hv
        exact wide t ht e he
      · rw [RegexMatcher.build, hvalid, hphrases]
        rfl
      · obtain ⟨compiled, hcompiled⟩ := RegexMatcher.exists_compileTerms accept
        exact ⟨compiled, by rw [RegexMatcher.buildWith, hvalid, hcompiled, hphrases]; rfl⟩
  · exact Pattern.filled_of_parse h

/-- A term with an optional, one with nothing else, and this one again. -/
def optionalTerms : List Term :=
  [⟨1, false, false, [.one (.literal ['a']), .optional (.literal ['b'])]⟩,
    ⟨2, false, false, [.optional (.literal ['c'])]⟩,
    ⟨2, false, false, [.optional (.literal ['c'])]⟩]

/-- Of the flaws of the second and the third term the first one is reported, not the empty phrase.
Without these terms it is the phrase. -/
theorem Options.validation_exact_sample :
    let c : Compilers := (Engines.ofTerms optionalTerms).compilers
    let o (terms : List Term) : Options := ⟨terms, [""], .identity, .identity, none⟩
    let flawed : Error := .matchesEmptyText 2 "[c]"
    (∀ t ∈ optionalTerms, ∀ n ∈ t.pattern.nodes, n.filled) ∧
      Automaton.build (o optionalTerms) = .error flawed ∧
      RegexMatcher.buildWith c (o optionalTerms) = .error flawed ∧
      Automaton.build (o [optionalTerms[0]]) = .error (.emptyWhitelistTerm 0) ∧
      RegexMatcher.buildWith c (o [optionalTerms[0]]) = .error (.emptyWhitelistTerm 0) := by
  intro c o flawed
  have filled : ∀ t ∈ optionalTerms, ∀ n ∈ t.pattern.nodes, n.filled := by decide
  have flawless : Term.Flawless [optionalTerms[0]] := Term.validate_eq_ok_iff.mp rfl
  have first : Term.FirstFlaw optionalTerms optionalTerms[1] .allOptional := by
    refine ⟨[optionalTerms[0]], [optionalTerms[2]], rfl, flawless, by decide, ?_⟩
    rintro (_ | _ | _) hrank
    · decide
    · decide
    · contradiction
  have herror : Flaw.allOptional.error optionalTerms[1] = flawed := by decide
  obtain ⟨-, refused, -⟩ := validation_exact c (o optionalTerms) filled
  obtain ⟨hflawed, hflawed'⟩ := refused _ _ first
  rw [herror] at hflawed hflawed'
  obtain ⟨-, -, accepted, -⟩ := validation_exact c (o [optionalTerms[0]]) (by decide)
  obtain ⟨hphrase, hphrase'⟩ :=
    (accepted flawless).1 0 rfl fun j hj => absurd hj (Nat.not_lt_zero j)
  exact ⟨filled, hflawed, hflawed', hphrase, hphrase' (Engines.accept_compilers _ _)⟩

end TermScan
