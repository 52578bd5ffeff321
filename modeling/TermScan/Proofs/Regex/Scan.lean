import Mathlib.Data.List.TakeWhile
import TermScan.RegexScan
import TermScan.Proofs.Regex.Optionals

/-!
# Scanning term by term

The search for a term passes over the same candidates whatever was found before and whatever is
whitelisted. So a scan of several terms fails with the first of them whose search is given up, and
finds what is left of the candidates of all of them otherwise. A search whose results start between
characters moves on by a character at least, so no two candidates of a term start at the same place.
-/
namespace TermScan

/-- None of the spans contains a match. -/
def IntervalSet.allows (whitelisted : IntervalSet) (m : Match) : Bool :=
  !whitelisted.anyContains ⟨m.first, m.last⟩

/-- From a border on a search finds nothing that starts within a character. -/
def FallibleSearch.FindsBorders (search : FallibleSearch) : Prop :=
  ∀ text pos range, IsBorder text pos → search.find text pos = .ok (some range) →
    IsBorder text range.start

theorem Haystack.match?_eq (kept : List Mapped) (whitelisted : IntervalSet) (id : Int)
    (range : ByteRange) : (⟨kept, whitelisted⟩ : Haystack).match? id range =
      ((⟨kept, .empty⟩ : Haystack).match? id range).filter whitelisted.allows :=
  RegexMatcher.matchBetween?_eq_filter whitelisted id kept _ _

namespace RegexMatcher

section Step

variable {search : FallibleSearch} (h : Haystack) {id : Int}

theorem scanTerm_of_end {pos : Nat} (hpos : ¬pos < byteLength h.text) (stopAtFirst : Bool)
    (found : List Match) : scanTerm search h id stopAtFirst found pos = .ok found := by
  rw [scanTerm, if_neg hpos]

theorem scanTerm_of_error {pos : Nat} (hpos : pos < byteLength h.text) {reason : String}
    (hfind : search.find h.text pos = .error reason) (stopAtFirst : Bool) (found : List Match) :
    scanTerm search h id stopAtFirst found pos = .error (.regexScan id reason) := by
  rw [scanTerm, if_pos hpos]
  split <;> simp_all

theorem scanTerm_of_none {pos : Nat} (hfind : search.find h.text pos = .ok none)
    (stopAtFirst : Bool) (found : List Match) :
    scanTerm search h id stopAtFirst found pos = .ok found := by
  rw [scanTerm]
  split
  · split <;> simp_all
  · rfl

theorem scanTerm_of_some {pos : Nat} (hpos : pos < byteLength h.text) {range : ByteRange}
    (hfind : search.find h.text pos = .ok (some range)) (stopAtFirst : Bool) (found : List Match) :
    scanTerm search h id stopAtFirst found pos =
      match h.match? id range with
      | some m =>
        if stopAtFirst then .ok (found ++ [m])
        else scanTerm search h id stopAtFirst (found ++ [m]) (h.next range)
      | none => scanTerm search h id stopAtFirst found (h.next range) := by
  rw [scanTerm, if_pos hpos]
  split
  · next hfind' => simp [hfind] at hfind'
  · next hfind' => simp [hfind] at hfind'
  · next range' hfind' =>
    obtain rfl : range = range' := by simpa [hfind] using hfind'
    rfl

/-- What holds where the search for a term ends, and holds of a byte from which it moves on if it
holds of the one it moves on to, holds of every byte. -/
theorem search_induction (search : FallibleSearch) (h : Haystack) {motive : Nat → Prop}
    (ended : ∀ pos, ¬pos < byteLength h.text → motive pos)
    (failed : ∀ pos reason, pos < byteLength h.text → search.find h.text pos = .error reason →
      motive pos)
    (missed : ∀ pos, pos < byteLength h.text → search.find h.text pos = .ok none → motive pos)
    (found : ∀ pos range, pos < byteLength h.text →
      search.find h.text pos = .ok (some range) → motive (h.next range) → motive pos)
    (pos : Nat) : motive pos := by
  induction hleft : byteLength h.text - pos using Nat.strong_induction_on generalizing pos with
  | h left ih =>
    by_cases hpos : pos < byteLength h.text
    · cases hfind : search.find h.text pos with
      | error reason => exact failed pos reason hpos hfind
      | ok result =>
        cases result with
        | none => exact missed pos hpos hfind
        | some range =>
          have hle := search.le_start _ _ _ hfind
          have hlt := h.start_lt_next range
          exact found pos range hpos hfind (ih _ (by omega) _ rfl)
    · exact ended pos hpos

/-- What was found before stays in front. -/
theorem scanTerm_append (found : List Match) (pos : Nat) :
    scanTerm search h id false found pos =
      (scanTerm search h id false [] pos).map (found ++ ·) := by
  induction pos using search_induction search h generalizing found with
  | ended pos hpos =>
    rw [scanTerm_of_end h hpos, scanTerm_of_end h hpos]
    simp [Except.map]
  | failed pos reason hpos hfind =>
    rw [scanTerm_of_error h hpos hfind, scanTerm_of_error h hpos hfind]
    rfl
  | missed pos hpos hfind =>
    rw [scanTerm_of_none h hfind, scanTerm_of_none h hfind]
    simp [Except.map]
  | found pos range hpos hfind ih =>
    rw [scanTerm_of_some h hpos hfind, scanTerm_of_some h hpos hfind]
    cases h.match? id range with
    | none => exact ih found
    | some m =>
      show scanTerm search h id false (found ++ [m]) _ = (scanTerm search h id false [m] _).map _
      rw [ih (found ++ [m]), ih [m]]
      cases scanTerm search h id false [] (h.next range) with
      | error e => rfl
      | ok later => exact congrArg Except.ok (List.append_assoc _ _ _)

/-- A candidate comes before those of the rest of the text. -/
theorem scanTerm_step {pos : Nat} (hpos : pos < byteLength h.text) {range : ByteRange}
    (hfind : search.find h.text pos = .ok (some range)) :
    scanTerm search h id false [] pos =
      (scanTerm search h id false [] (h.next range)).map ((h.match? id range).toList ++ ·) := by
  rw [scanTerm_of_some h hpos hfind, ← scanTerm_append]
  cases h.match? id range <;> rfl

/-- So a search that is not given up is not given up later. -/
theorem exists_later {pos : Nat} (hpos : pos < byteLength h.text) {range : ByteRange}
    (hfind : search.find h.text pos = .ok (some range)) {found : List Match}
    (hfound : scanTerm search h id false [] pos = .ok found) :
    ∃ later, scanTerm search h id false [] (h.next range) = .ok later ∧
      found = (h.match? id range).toList ++ later := by
  rw [scanTerm_step h hpos hfind] at hfound
  cases hlater : scanTerm search h id false [] (h.next range) with
  | error e => rw [hlater] at hfound; contradiction
  | ok later => rw [hlater] at hfound; exact ⟨later, rfl, (Except.ok.inj hfound).symm⟩

end Step

/-- The whitelist only removes candidates. -/
theorem scanTerm_eq_filter (search : FallibleSearch) (kept : List Mapped)
    (whitelisted : IntervalSet) (id : Int) (pos : Nat) :
    scanTerm search ⟨kept, whitelisted⟩ id false [] pos =
      (scanTerm search ⟨kept, .empty⟩ id false [] pos).map (·.filter whitelisted.allows) := by
  induction pos using search_induction search ⟨kept, whitelisted⟩ with
  | ended pos hpos =>
    rw [scanTerm_of_end ⟨kept, whitelisted⟩ hpos, scanTerm_of_end ⟨kept, .empty⟩ hpos]
    rfl
  | failed pos reason hpos hfind =>
    rw [scanTerm_of_error ⟨kept, whitelisted⟩ hpos hfind,
      scanTerm_of_error ⟨kept, .empty⟩ hpos hfind]
    rfl
  | missed pos hpos hfind =>
    rw [scanTerm_of_none ⟨kept, whitelisted⟩ hfind, scanTerm_of_none ⟨kept, .empty⟩ hfind]
    rfl
  | found pos range hpos hfind ih =>
    rw [scanTerm_step ⟨kept, whitelisted⟩ hpos hfind, scanTerm_step ⟨kept, .empty⟩ hpos hfind, ih,
      Haystack.match?_eq]
    show _ = ((scanTerm search ⟨kept, .empty⟩ id false []
      ((⟨kept, whitelisted⟩ : Haystack).next range)).map _).map _
    cases scanTerm search ⟨kept, .empty⟩ id false []
        ((⟨kept, whitelisted⟩ : Haystack).next range) with
    | error e => rfl
    | ok later =>
      simp only [Except.map, List.filter_append, Option.toList_filter]

/-- A scan that stops at the first match stops at the first candidate that is allowed. -/
theorem scanTerm_first {search : FallibleSearch} {kept : List Mapped} (whitelisted : IntervalSet)
    {id : Int} {pos : Nat} {own : List Match}
    (h : scanTerm search ⟨kept, .empty⟩ id false [] pos = .ok own) :
    scanTerm search ⟨kept, whitelisted⟩ id true [] pos =
      .ok (own.find? whitelisted.allows).toList := by
  induction pos using search_induction search ⟨kept, .empty⟩ generalizing own with
  | ended pos hpos =>
    rw [scanTerm_of_end ⟨kept, .empty⟩ hpos] at h
    obtain rfl := Except.ok.inj h
    exact scanTerm_of_end ⟨kept, whitelisted⟩ hpos true []
  | failed pos reason hpos hfind =>
    rw [scanTerm_of_error ⟨kept, .empty⟩ hpos hfind] at h
    contradiction
  | missed pos hpos hfind =>
    rw [scanTerm_of_none ⟨kept, .empty⟩ hfind] at h
    obtain rfl := Except.ok.inj h
    exact scanTerm_of_none ⟨kept, whitelisted⟩ hfind true []
  | found pos range hpos hfind ih =>
    obtain ⟨later, hlater, rfl⟩ := exists_later ⟨kept, .empty⟩ hpos hfind h
    rw [scanTerm_of_some ⟨kept, whitelisted⟩ hpos hfind, Haystack.match?_eq]
    cases (⟨kept, .empty⟩ : Haystack).match? id range with
    | none => exact ih hlater
    | some m =>
      rw [Option.toList_some, List.singleton_append]
      cases hallowed : whitelisted.allows m with
      | true =>
        rw [Option.filter_some_pos hallowed, List.find?_cons_of_pos hallowed]
        rfl
      | false =>
        have hnot : ¬whitelisted.allows m := by simp [hallowed]
        rw [Option.filter_some_neg hallowed, List.find?_cons_of_neg hnot]
        exact ih hlater

/-! Terms -/

/-- What the search for a term passes over: what it would find if nothing were whitelisted. -/
def candidates (engines : FallibleEngines) (kept : List Mapped) (t : Term) :
    Except Error (List Match) :=
  scanTerm (engines.compile t.pattern) ⟨kept, .empty⟩ t.id false [] 0

/-- Why the search for a term is given up, if it is. -/
def failure? (engines : FallibleEngines) (kept : List Mapped) (t : Term) : Option Error :=
  match candidates engines kept t with
  | .error e => some e
  | .ok _ => none

/-- The candidates of a term whose search is not given up. -/
def passed (engines : FallibleEngines) (kept : List Mapped) (t : Term) : List Match :=
  ((candidates engines kept t).toOption).getD []

theorem candidates_eq_ok {engines : FallibleEngines} {kept : List Mapped} {t : Term}
    (hnone : failure? engines kept t = none) :
    candidates engines kept t = .ok (passed engines kept t) := by
  rw [failure?] at hnone
  rw [passed]
  cases hown : candidates engines kept t with
  | error e => rw [hown] at hnone; contradiction
  | ok own => rfl

/-- A scan of several terms fails with the first failure among theirs. -/
theorem scanTerms_eq (engines : FallibleEngines) (kept : List Mapped) (whitelisted : IntervalSet)
    (terms : List Term) (found : List Match) :
    scanTerms engines ⟨kept, whitelisted⟩ terms found =
      match terms.findSome? (failure? engines kept) with
      | some e => .error e
      | none =>
        .ok (found ++ (terms.flatMap (passed engines kept)).filter whitelisted.allows) := by
  induction terms generalizing found with
  | nil => simp [scanTerms]
  | cons t terms ih =>
    rw [scanTerms, scanTerm_append, scanTerm_eq_filter, List.findSome?_cons, List.flatMap_cons,
      failure?, passed]
    show ((Except.map _ (Except.map _ (candidates engines kept t))).bind fun found => _) = _
    cases candidates engines kept t with
    | error e => rfl
    | ok own =>
      show scanTerms engines ⟨kept, whitelisted⟩ terms (found ++ own.filter _) = _
      rw [ih, List.append_assoc, ← List.filter_append]
      rfl

theorem scanTerms_eq_ok_iff {engines : FallibleEngines} {kept : List Mapped}
    {whitelisted : IntervalSet} {terms : List Term} {found list : List Match} :
    scanTerms engines ⟨kept, whitelisted⟩ terms found = .ok list ↔
      terms.findSome? (failure? engines kept) = none ∧
      found ++ (terms.flatMap (passed engines kept)).filter whitelisted.allows = list := by
  rw [scanTerms_eq]
  cases terms.findSome? (failure? engines kept) <;> simp

/-- If no search is given up, going through the terms ends at the first candidate of all that is
allowed. -/
theorem scanToFirst_eq {engines : FallibleEngines} {kept : List Mapped} {terms : List Term}
    (hnone : terms.findSome? (failure? engines kept) = none) (whitelisted : IntervalSet) :
    scanToFirst engines ⟨kept, whitelisted⟩ terms [] =
      .ok ((terms.flatMap (passed engines kept)).find? whitelisted.allows) := by
  induction terms with
  | nil => rfl
  | cons t terms ih =>
    obtain ⟨hown, hlater⟩ := List.forall_mem_cons.mp (List.findSome?_eq_none_iff.mp hnone)
    rw [scanToFirst, scanTerm_first whitelisted (candidates_eq_ok hown), List.flatMap_cons,
      List.find?_append]
    -- a term without a match leaves nothing found, so the next one starts from nothing again
    cases (passed engines kept t).find? whitelisted.allows with
    | none => exact ih (List.findSome?_eq_none_iff.mpr hlater)
    | some m => rfl

theorem failure?_of_error {engines : FallibleEngines} {kept : List Mapped} {t : Term}
    {reason : String} (htext : 0 < byteLength (kept.map Mapped.char))
    (hfind : (engines.compile t.pattern).find (kept.map Mapped.char) 0 = .error reason) :
    failure? engines kept t = some (.regexScan t.id reason) := by
  rw [failure?, candidates, scanTerm_of_error ⟨kept, .empty⟩ htext hfind]

/-- The failure of a term names the term. -/
theorem failure?_eq_some {engines : FallibleEngines} {kept : List Mapped} {t : Term} {e : Error}
    (h : failure? engines kept t = some e) : ∃ reason, e = .regexScan t.id reason := by
  have hfails (pos : Nat) : scanTerm (engines.compile t.pattern) ⟨kept, .empty⟩ t.id false [] pos =
      .error e → ∃ reason, e = .regexScan t.id reason := by
    induction pos using search_induction (engines.compile t.pattern) ⟨kept, .empty⟩ with
    | ended pos hpos =>
      rw [scanTerm_of_end ⟨kept, .empty⟩ hpos]
      nofun
    | failed pos reason hpos hfind =>
      rw [scanTerm_of_error ⟨kept, .empty⟩ hpos hfind]
      exact fun heq => ⟨reason, (Except.error.inj heq).symm⟩
    | missed pos hpos hfind =>
      rw [scanTerm_of_none ⟨kept, .empty⟩ hfind]
      nofun
    | found pos range hpos hfind ih =>
      rw [scanTerm_step ⟨kept, .empty⟩ hpos hfind]
      intro heq
      cases hlater : scanTerm (engines.compile t.pattern) ⟨kept, .empty⟩ t.id false []
          ((⟨kept, .empty⟩ : Haystack).next range) with
      | error e' =>
        rw [hlater] at heq
        exact ih (hlater.trans heq)
      | ok later =>
        rw [hlater] at heq
        contradiction
  rw [failure?] at h
  split at h
  · next e' herror =>
    obtain rfl := Option.some.inj h
    exact hfails 0 herror
  · contradiction

/-! Places of candidates -/

theorem charIndex_mono (text : List Char) {offset offset' : Nat} (h : offset ≤ offset') :
    charIndex text offset ≤ charIndex text offset' := by
  have hearlier : ((sites text).takeWhile fun s => s.span.first ≤ offset) =
      ((sites text).takeWhile fun s => s.span.first ≤ offset').takeWhile
        fun s => s.span.first ≤ offset := by
    rw [List.takeWhile_takeWhile]
    congr 1
    ext s
    rw [Bool.eq_iff_iff]
    simp only [decide_eq_true_eq]
    exact ⟨fun hs => ⟨hs, hs.trans h⟩, And.left⟩
  have hle := (List.takeWhile_prefix (fun s : Site => decide (s.span.first ≤ offset))
    (l := (sites text).takeWhile fun s => s.span.first ≤ offset')).length_le
  rw [← hearlier] at hle
  exact Nat.sub_le_sub_right hle 1

section Split

variable {h : Haystack} {before behind : List Mapped} {m : Mapped}

theorem charIndex_of_append (hkept : h.kept = before ++ m :: behind) :
    charIndex h.text (byteLength (before.map Mapped.char)) = before.length := by
  have hsize := m.char.utf8Size_pos
  rw [Haystack.text, hkept, List.map_append, List.map_cons,
    charIndex_eq (Nat.le_refl _) (by omega), List.length_map]

/-- No byte behind some kept characters belongs to one of them. -/
theorem length_le_charIndex {read rest : List Mapped} (hkept : h.kept = read ++ rest)
    (hlt : byteLength (read.map Mapped.char) < byteLength h.text) {offset : Nat}
    (hle : byteLength (read.map Mapped.char) ≤ offset) :
    read.length ≤ charIndex h.text offset := by
  cases rest with
  | nil => exact absurd hlt (by simp [Haystack.text, hkept])
  | cons m rest =>
    have hmono := charIndex_mono h.text hle
    rwa [charIndex_of_append hkept] at hmono

/-- A search that has found a character moves on to the next one. -/
theorem next_of_append (hkept : h.kept = before ++ m :: behind) {range : ByteRange}
    (hstart : byteLength (before.map Mapped.char) = range.start) :
    h.next range = byteLength ((before ++ [m]).map Mapped.char) := by
  have htext : h.text = before.map Mapped.char ++ m.char :: behind.map Mapped.char := by
    rw [Haystack.text, hkept, List.map_append, List.map_cons]
  rw [Haystack.next, htext, ← hstart, charSize_eq]
  simp

end Split

/-- A candidate lies between two kept characters. -/
theorem matchBetween?_eq_some {id : Int} {kept : List Mapped} {i j : Nat} {m : Match}
    (h : matchBetween? .empty id kept i j = some m) :
    ∃ hi : i < kept.length, ∃ hj : j < kept.length,
      m = ⟨id, j - i + 1, kept[i].site.span.first, kept[j].site.span.last⟩ := by
  rw [matchBetween?] at h
  split at h
  · contradiction
  · next span hspan =>
    obtain ⟨a, ha, hspan⟩ := Option.bind_eq_some_iff.mp hspan
    obtain ⟨b, hb, hspan⟩ := Option.bind_eq_some_iff.mp hspan
    obtain rfl := Option.some.inj hspan
    obtain ⟨hi, rfl⟩ := List.getElem?_eq_some_iff.mp ha
    obtain ⟨hj, rfl⟩ := List.getElem?_eq_some_iff.mp hb
    exact ⟨hi, hj, (Option.some.inj h).symm⟩

section Places

variable {p : Pipeline} {text : List Char} {search : FallibleSearch} {id : Int}

/-- Candidates are told apart by their bytes. -/
theorem distinguished_of_matchBetween {found : List Match}
    (h : ∀ m ∈ found, ∃ id i j, matchBetween? .empty id (p.apply text) i j = some m) :
    Match.Distinguished found := by
  intro m hm m' hm' hfirst hlast hid
  obtain ⟨id, i, j, hbetween⟩ := h m hm
  obtain ⟨id', i', j', hbetween'⟩ := h m' hm'
  obtain ⟨hi, hj, rfl⟩ := matchBetween?_eq_some hbetween
  obtain ⟨hi', hj', rfl⟩ := matchBetween?_eq_some hbetween'
  obtain rfl := Pipeline.eq_of_first_eq hi hi' hfirst
  obtain rfl := Pipeline.eq_of_last_eq hj hj' hlast
  obtain rfl : id = id' := hid
  rfl

/-- A candidate starts before all others that start at a later character. -/
theorem pairwise_cons_of_matchBetween {first last : Nat} {m : Match} {later : List Match}
    (hm : matchBetween? .empty id (p.apply text) first last = some m)
    (hpair : later.Pairwise fun m m' => m.first < m'.first)
    (hlater : ∀ m ∈ later, ∃ i j, first < i ∧
      matchBetween? .empty id (p.apply text) i j = some m) :
    (m :: later).Pairwise fun m m' => m.first < m'.first := by
  refine List.pairwise_cons.mpr ⟨fun m' hm' => ?_, hpair⟩
  obtain ⟨i, j, hlt, hbetween⟩ := hlater m' hm'
  obtain ⟨hfirst, -, rfl⟩ := matchBetween?_eq_some hm
  obtain ⟨hi, -, rfl⟩ := matchBetween?_eq_some hbetween
  have hspan := site_first_le_last (Pipeline.site_mem_sites hfirst)
  have hapart := Pipeline.last_lt_first hfirst hi hlt
  exact Nat.lt_of_le_of_lt hspan hapart

/-- From a character on the candidates of a term start one behind the other. -/
theorem pairwise_scanTerm (borders : search.FindsBorders) {read rest : List Mapped}
    (hkept : p.apply text = read ++ rest) {found : List Match}
    (h : scanTerm search ⟨p.apply text, .empty⟩ id false [] (byteLength (read.map Mapped.char)) =
      .ok found) :
    found.Pairwise (fun m m' => m.first < m'.first) ∧
      ∀ m ∈ found, ∃ i j, read.length ≤ i ∧
        matchBetween? .empty id (p.apply text) i j = some m := by
  have hchars : (p.apply text).map Mapped.char = read.map Mapped.char ++ rest.map Mapped.char := by
    rw [hkept, List.map_append]
  induction hpos : byteLength (read.map Mapped.char) using
    search_induction search ⟨p.apply text, .empty⟩ generalizing read rest found with
  | ended pos hend =>
    rw [hpos, scanTerm_of_end _ hend] at h
    obtain rfl := Except.ok.inj h
    simp
  | failed pos reason hlt hfind =>
    rw [hpos, scanTerm_of_error _ hlt hfind] at h
    contradiction
  | missed pos hlt hfind =>
    rw [hpos, scanTerm_of_none _ hfind] at h
    obtain rfl := Except.ok.inj h
    simp
  | found pos range hlt hfind ih =>
    subst hpos
    obtain ⟨a, b, hab, hstart⟩ := borders _ _ _ ⟨_, _, hchars, rfl⟩ hfind
    obtain ⟨before, behind, hsplit, rfl, rfl⟩ := List.map_eq_append_iff.mp hab
    have hle : read.length ≤ charIndex ((p.apply text).map Mapped.char) range.start :=
      length_le_charIndex (h := ⟨p.apply text, .empty⟩) hkept hlt (search.le_start _ _ _ hfind)
    obtain ⟨later, hlater, rfl⟩ := exists_later _ hlt hfind h
    obtain ⟨hpair, hplaces⟩ : later.Pairwise (fun m m' => m.first < m'.first) ∧
        ∀ m ∈ later, ∃ i j, charIndex ((p.apply text).map Mapped.char) range.start < i ∧
          matchBetween? .empty id (p.apply text) i j = some m := by
      cases behind with
      | nil =>
        have hend : ¬(⟨p.apply text, .empty⟩ : Haystack).next range <
            byteLength ((p.apply text).map Mapped.char) := by
          have := (⟨p.apply text, .empty⟩ : Haystack).start_lt_next range
          rw [hab, byteLength_append, hstart]
          simp
          omega
        rw [scanTerm_of_end _ hend] at hlater
        obtain rfl := Except.ok.inj hlater
        simp
      | cons m behind =>
        have hindex : charIndex ((p.apply text).map Mapped.char) _ = before.length :=
          charIndex_of_append (h := ⟨p.apply text, .empty⟩) hsplit
        have hnext := next_of_append (h := ⟨p.apply text, .empty⟩) hsplit hstart
        have hsplit' : p.apply text = before ++ [m] ++ behind := by simp [hsplit]
        have hplaces := ih hsplit' (hnext ▸ hlater) (by rw [hsplit', List.map_append]) hnext.symm
        rw [List.length_append] at hplaces
        rw [← hstart, hindex]
        exact hplaces
    cases hm : (⟨p.apply text, .empty⟩ : Haystack).match? id range with
    | none =>
      refine ⟨hpair, fun m hm => ?_⟩
      obtain ⟨i, j, hlt, hbetween⟩ := hplaces m hm
      exact ⟨i, j, by omega, hbetween⟩
    | some m =>
      refine ⟨pairwise_cons_of_matchBetween hm hpair hplaces, ?_⟩
      refine List.forall_mem_cons.mpr ⟨⟨_, _, hle, hm⟩, fun m' hm' => ?_⟩
      obtain ⟨i, j, hlt, hbetween⟩ := hplaces m' hm'
      exact ⟨i, j, by omega, hbetween⟩

/-- The candidates of a term start at different places. -/
theorem pairwise_passed {engines : FallibleEngines} {t : Term}
    (borders : (engines.compile t.pattern).FindsBorders)
    (hnone : failure? engines (p.apply text) t = none) :
    (passed engines (p.apply text) t).Pairwise (fun m m' => m.first < m'.first) ∧
      ∀ m ∈ passed engines (p.apply text) t,
        ∃ i j, matchBetween? .empty t.id (p.apply text) i j = some m := by
  obtain ⟨hpair, hplaces⟩ :=
    pairwise_scanTerm borders (List.nil_append (p.apply text)).symm (candidates_eq_ok hnone)
  refine ⟨hpair, fun m hm => ?_⟩
  obtain ⟨i, j, -, hbetween⟩ := hplaces m hm
  exact ⟨i, j, hbetween⟩

/-- No candidate of any term comes twice, and position and term tell all of them apart. -/
theorem nodup_passed {engines : FallibleEngines} {terms : List Term}
    (hids : (terms.map Term.id).Nodup)
    (borders : ∀ t ∈ terms, (engines.compile t.pattern).FindsBorders)
    (hnone : terms.findSome? (failure? engines (p.apply text)) = none) :
    (terms.flatMap (passed engines (p.apply text))).Nodup ∧
      Match.Distinguished (terms.flatMap (passed engines (p.apply text))) := by
  have hpassed (t : Term) (ht : t ∈ terms) :=
    pairwise_passed (borders t ht) (List.findSome?_eq_none_iff.mp hnone t ht)
  constructor
  · refine List.nodup_flatMap.mpr ⟨fun t ht => (hpassed t ht).1.imp fun hlt heq => ?_, ?_⟩
    · exact Nat.lt_irrefl _ (heq ▸ hlt)
    · refine (List.pairwise_map.mp hids).imp_of_mem fun {t t'} ht ht' hne m hm hm' => ?_
      obtain ⟨i, j, hbetween⟩ := (hpassed t ht).2 m hm
      obtain ⟨i', j', hbetween'⟩ := (hpassed t' ht').2 m hm'
      obtain ⟨_, _, heq⟩ := matchBetween?_eq_some hbetween
      obtain ⟨_, _, heq'⟩ := matchBetween?_eq_some hbetween'
      exact hne (congrArg Match.termId (heq.symm.trans heq'))
  · have hbetween : ∀ m ∈ terms.flatMap (passed engines (p.apply text)),
        ∃ id i j, matchBetween? .empty id (p.apply text) i j = some m := by
      intro m hm
      obtain ⟨t, ht, hm⟩ := List.mem_flatMap.mp hm
      exact ⟨t.id, (hpassed t ht).2 m hm⟩
    exact distinguished_of_matchBetween hbetween

end Places

/-! Engines that give nothing up -/

section Fallible

variable (h : Haystack) {id : Int}

theorem scanTerm_fallible (search : Search) (found : List Match) (pos : Nat) :
    scanTerm search.fallible h id false found pos =
      .ok (found ++ searchFrom search h.whitelisted id h.kept h.text pos) := by
  fun_induction searchFrom search h.whitelisted id h.kept h.text pos generalizing found with
  | case1 pos hpos hfind =>
    have hnone : search.fallible.find h.text pos = .ok none := congrArg Except.ok hfind
    rw [scanTerm_of_none h hnone, List.append_nil]
  | case2 pos hpos range hfind first last hle hsize ih =>
    have hsome : search.fallible.find h.text pos = .ok (some range) := congrArg Except.ok hfind
    rw [scanTerm_of_some h hpos hsome]
    show (match matchBetween? h.whitelisted id h.kept first last with
      | some m => _
      | none => _) = _
    cases matchBetween? h.whitelisted id h.kept first last with
    | none => exact ih found
    | some m =>
      rw [Option.toList_some, ← List.append_assoc]
      exact ih (found ++ [m])
  | case3 pos hpos => rw [scanTerm_of_end h hpos, List.append_nil]

/-- A term that asks for no boundary is searched for without failure. -/
theorem bounded_of_failure? {engines : FallibleEngines} {kept : List Mapped} {t : Term} {e : Error}
    (h : failure? engines kept t = some e) : t.pattern.startBoundary ∨ t.pattern.endBoundary := by
  rw [← Bool.or_eq_true]
  by_contra hunbounded
  rw [failure?, candidates, FallibleEngines.compile, if_neg hunbounded, scanTerm_fallible] at h
  contradiction

theorem compile_fallible (engines : Engines) (p : Pattern) :
    engines.fallible.compile p = (engines.compile p).fallible := by
  unfold FallibleEngines.compile Engines.compile
  split_ifs <;> rfl

theorem scanTerms_fallible (engines : Engines) (terms : List Term) (found : List Match) :
    scanTerms engines.fallible h terms found = .ok (found ++ terms.flatMap fun t =>
      searchFrom (engines.compile t.pattern) h.whitelisted t.id h.kept h.text 0) := by
  induction terms generalizing found with
  | nil => rw [scanTerms, List.flatMap_nil, List.append_nil]
  | cons t terms ih =>
    rw [scanTerms, compile_fallible, scanTerm_fallible, List.flatMap_cons, ← List.append_assoc]
    exact ih _

end Fallible

end RegexMatcher

theorem isBorder_of_leftmost? {length? : Option Char → List Char → Option Nat}
    {read rest : List Char} {range : ByteRange} (h : leftmost? length? read rest = some range) :
    IsBorder (read ++ rest) range.start := by
  induction rest generalizing read with
  | nil =>
    obtain ⟨n, -, rfl⟩ := Option.map_eq_some_iff.mp h
    exact ⟨read, [], rfl, rfl⟩
  | cons c rest ih =>
    rw [leftmost?] at h
    split at h
    · obtain rfl := Option.some.inj h
      exact ⟨read, c :: rest, rfl, rfl⟩
    · have hborder := ih h
      rwa [List.append_assoc] at hborder

/-- Leftmost matches start between characters. -/
theorem Search.FindsLeftmost.findsBorders {search : Search} {p : Pattern}
    (leftmost : search.FindsLeftmost p) : search.fallible.FindsBorders := by
  rintro text pos range ⟨read, rest, rfl, rfl⟩ hfind
  have hsome : search.find (read ++ rest) (byteLength read) = some range := Except.ok.inj hfind
  rw [leftmost] at hsome
  exact isBorder_of_leftmost? hsome

end TermScan
