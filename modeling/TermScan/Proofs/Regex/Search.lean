import TermScan.Proofs.Pattern.Choices
import TermScan.Proofs.Places
import TermScan.RegexSearch

/-!
# Searching again and again

A search that finds leftmost matches, asked again behind the first character of each of them, meets
every character at which the pattern matches. So it finds what trying the pattern at each character
finds, and the bytes it finds are those of the characters matched.
-/
namespace TermScan

/-- The leftmost match in the rest of a text that is read up to some point, where `length?` says how
many characters match behind a character. -/
def leftmost? (length? : Option Char → List Char → Option Nat) :
    (read rest : List Char) → Option ByteRange
  | read, [] =>
    (length? read.getLast? []).map fun _ => ⟨byteLength read, byteLength read⟩
  | read, c :: rest =>
    match length? read.getLast? (c :: rest) with
    | some n => some ⟨byteLength read, byteLength read + byteLength ((c :: rest).take n)⟩
    | none => leftmost? length? (read ++ [c]) rest

namespace Pattern

/-- A match of the pattern has characters, all of them in the text. -/
def MatchesSome (p : Pattern) : Prop :=
  ∀ before text n, p.matchLength? before text = some n → 0 < n ∧ n ≤ text.length

theorem reaches_of_matchLength? {p : Pattern} {before : Option Char} {text : List Char} {n : Nat}
    (h : p.matchLength? before text = some n) :
    Reaches (fun rest => !(p.endBoundary && rest.head?.any isWordChar)) p.nodes text n := by
  rw [matchLength?] at h
  split at h
  · contradiction
  · rw [matchNodes?_eq_preferredLength?] at h
    exact reaches_of_preferredLength? h

theorem matchesSome {p : Pattern} (wide : ∀ e ∈ expand p.nodes, 0 < e.width) : p.MatchesSome := by
  intro before text n h
  obtain ⟨e, he, rfl, hheads, -⟩ := reaches_of_matchLength? h
  exact ⟨wide e he, hheads.1⟩

end Pattern

/-- A search finds the leftmost match of a pattern from each character of a text on, of the length
that the pattern prefers there. Boundaries are judged in the whole text. -/
def Search.FindsLeftmost (search : Search) (p : Pattern) : Prop :=
  ∀ read rest, search.find (read ++ rest) (byteLength read) = leftmost? p.matchLength? read rest

/-! Bytes and characters -/

theorem length_takeWhile_sitesFrom (offset base : Nat) (before : Option Char) (a : List Char)
    (c : Char) (b : List Char) (hle : base + byteLength a ≤ offset)
    (hlt : offset < base + byteLength a + c.utf8Size) :
    ((sitesFrom base before (a ++ c :: b)).takeWhile fun s => s.span.first ≤ offset).length =
      a.length + 1 := by
  have starts (n : Nat) (d : Char) (b : List Char) (p : Option Char) :
      ((sitesFrom n p (d :: b)).takeWhile fun s => s.span.first ≤ offset) =
        if n ≤ offset then ⟨d, Span.ofChar n d, p, b.head?⟩ ::
          (sitesFrom (n + d.utf8Size) (some d) b).takeWhile fun s => s.span.first ≤ offset
        else [] := by
    rw [sitesFrom, List.takeWhile_cons, Span.ofChar]
    simp only [decide_eq_true_eq]
  induction a generalizing base before with
  | nil =>
    rw [byteLength_nil] at hle hlt
    have hstop : (sitesFrom (base + c.utf8Size) (some c) b).takeWhile
        (fun s => s.span.first ≤ offset) = [] := by
      cases b with
      | nil => rfl
      | cons d b => rw [starts, if_neg (by omega)]
    rw [List.nil_append, starts, if_pos (by omega), hstop]
    rfl
  | cons d a ih =>
    rw [byteLength_cons] at hle hlt
    rw [List.cons_append, starts, if_pos (by omega), List.length_cons,
      ih _ _ (by omega) (by omega), List.length_cons]

theorem charIndex_eq {a : List Char} {c : Char} {b : List Char} {offset : Nat}
    (hle : byteLength a ≤ offset) (hlt : offset < byteLength a + c.utf8Size) :
    charIndex (a ++ c :: b) offset = a.length := by
  have h := length_takeWhile_sitesFrom offset 0 none a c b (by omega) (by omega)
  rw [charIndex, sites, h, Nat.add_sub_cancel]

theorem charSize_eq (a : List Char) (c : Char) (b : List Char) :
    charSize (a ++ c :: b) (byteLength a) = c.utf8Size := by simp [charSize]

/-- The last byte of the first characters of a text belongs to the last of them. -/
theorem charIndex_of_take {a b : List Char} {n : Nat} (hpos : 0 < n) (hle : n ≤ b.length) :
    charIndex (a ++ b) (max (byteLength a + byteLength (b.take n) - 1) (byteLength a)) =
      a.length + n - 1 := by
  obtain ⟨k, rfl⟩ : ∃ k, n = k + 1 := ⟨n - 1, by omega⟩
  have hk : k < b.length := hle
  have hsize := b[k].utf8Size_pos
  have hpart : byteLength (b.take (k + 1)) = byteLength (b.take k) + b[k].utf8Size := by
    rw [List.take_succ_eq_append_getElem hk, byteLength_append, byteLength_cons, byteLength_nil,
      Nat.add_zero]
  have htext : a ++ b = (a ++ b.take k) ++ b[k] :: b.drop (k + 1) := by
    rw [List.append_assoc, ← List.drop_eq_getElem_cons hk, List.take_append_drop]
  have hlength : (a ++ b.take k).length = a.length + k := by
    rw [List.length_append, List.length_take, Nat.min_eq_left (Nat.le_of_lt hk)]
  rw [htext, charIndex_eq (by rw [byteLength_append]; omega) (by rw [byteLength_append]; omega),
    hlength]
  rfl

theorem sourceSpan?_append (read kept : List Mapped) (i j : Nat) :
    sourceSpan? (read ++ kept) (read.length + i) (read.length + j) = sourceSpan? kept i j := by
  simp [sourceSpan?, List.getElem?_append_right]

namespace RegexMatcher

variable {search : Search} {whitelisted : IntervalSet} {id : Int} {kept : List Mapped}
  {text : List Char} {pos : Nat}

theorem searchFrom_of_none (h : search.find text pos = none) :
    searchFrom search whitelisted id kept text pos = [] := by
  rw [searchFrom]
  split
  · split
    · rfl
    · next h' => rw [h] at h'; contradiction
  · rfl

theorem searchFrom_of_some {range : ByteRange} (hpos : pos < byteLength text)
    (h : search.find text pos = some range) :
    searchFrom search whitelisted id kept text pos =
      (matchBetween? whitelisted id kept (charIndex text range.start)
        (charIndex text (max (range.stop - 1) range.start))).toList ++
      searchFrom search whitelisted id kept text (range.start + charSize text range.start) := by
  rw [searchFrom, if_pos hpos]
  split
  · next h' => rw [h] at h'; contradiction
  · next range' h' =>
    rw [h] at h'
    obtain rfl := Option.some.inj h'
    rfl

theorem matchBetween?_eq {read kept : List Mapped} {n : Nat} (hn : 0 < n) :
    matchBetween? whitelisted id (read ++ kept) read.length (read.length + n - 1) =
      match? whitelisted id kept n := by
  have hspan : sourceSpan? (read ++ kept) read.length (read.length + n - 1) =
      sourceSpan? kept 0 (n - 1) := by
    rw [← sourceSpan?_append read kept 0 (n - 1), Nat.add_zero, Nat.add_sub_assoc hn]
  have hlength : read.length + n - 1 - read.length + 1 = n := by omega
  rw [matchBetween?, hspan, hlength]
  cases h : sourceSpan? kept 0 (n - 1) <;> simp [match?, h]

/-- Where two searches in a text come to the same match, they go on in the same way. -/
theorem searchFrom_congr {pos' : Nat} (hpos : pos < byteLength text)
    (hpos' : pos' < byteLength text) (h : search.find text pos = search.find text pos') :
    searchFrom search whitelisted id kept text pos =
      searchFrom search whitelisted id kept text pos' := by
  cases hfound : search.find text pos with
  | none => rw [searchFrom_of_none hfound, searchFrom_of_none (h ▸ hfound)]
  | some range => rw [searchFrom_of_some hpos hfound, searchFrom_of_some hpos' (h ▸ hfound)]

/-- A character at which the pattern does not match is passed over. -/
theorem searchFrom_of_no_match {p : Pattern} (leftmost : search.FindsLeftmost p)
    (nonempty : p.MatchesSome) {read rest : List Char} {c : Char}
    (h : p.matchLength? read.getLast? (c :: rest) = none) :
    searchFrom search whitelisted id kept (read ++ c :: rest) (byteLength read) =
      searchFrom search whitelisted id kept (read ++ c :: rest) (byteLength (read ++ [c])) := by
  have hsize := c.utf8Size_pos
  have hfind := leftmost read (c :: rest)
  have hlater := leftmost (read ++ [c]) rest
  rw [leftmost?, h] at hfind
  rw [List.append_assoc, List.singleton_append] at hlater
  cases rest with
  | nil =>
    have hnone : p.matchLength? (read ++ [c]).getLast? [] = none := by
      refine Option.eq_none_iff_forall_ne_some.mpr fun n hn => ?_
      obtain ⟨hpos, hle⟩ := nonempty _ _ _ hn
      rw [List.length_nil] at hle
      omega
    rw [leftmost?, hnone] at hfind hlater
    rw [searchFrom_of_none hfind, searchFrom_of_none hlater]
  | cons d rest =>
    have hsize' := d.utf8Size_pos
    exact searchFrom_congr (by simp; omega) (by simp; omega) (hfind.trans hlater.symm)

/-- Where the pattern matches, this match is found first, and then what follows the character. -/
theorem searchFrom_of_match {p : Pattern} (leftmost : search.FindsLeftmost p)
    (nonempty : p.MatchesSome) {read rest : List Mapped} {m : Mapped} {n : Nat}
    (h : p.matchLength? (read.map Mapped.char).getLast? ((m :: rest).map Mapped.char) = some n) :
    searchFrom search whitelisted id (read ++ m :: rest) ((read ++ m :: rest).map Mapped.char)
        (byteLength (read.map Mapped.char)) =
      (match? whitelisted id (m :: rest) n).toList ++
        searchFrom search whitelisted id (read ++ m :: rest) ((read ++ m :: rest).map Mapped.char)
          (byteLength ((read ++ [m]).map Mapped.char)) := by
  have hsize := m.char.utf8Size_pos
  obtain ⟨hpos, hle⟩ := nonempty _ _ _ h
  have hfind := leftmost (read.map Mapped.char) (m.char :: rest.map Mapped.char)
  have hfirst : charIndex (read.map Mapped.char ++ m.char :: rest.map Mapped.char)
      (byteLength (read.map Mapped.char)) = read.length := by
    rw [charIndex_eq (Nat.le_refl _) (by omega), List.length_map]
  have hlast := charIndex_of_take (a := read.map Mapped.char) hpos hle
  rw [List.map_cons] at h hlast
  rw [leftmost?, h] at hfind
  rw [List.length_map] at hlast
  rw [List.map_append, List.map_cons, searchFrom_of_some (by simp; omega) hfind, hfirst, hlast,
    charSize_eq, matchBetween?_eq hpos]
  simp

/-- From each character on, a leftmost search finds what trying the pattern at each of the
characters left finds. -/
theorem searchFrom_eq {p : Pattern} (leftmost : search.FindsLeftmost p)
    (nonempty : p.MatchesSome) (read rest : List Mapped) :
    searchFrom search whitelisted id (read ++ rest) ((read ++ rest).map Mapped.char)
        (byteLength (read.map Mapped.char)) =
      matchesFrom whitelisted id rest
        (p.matchLengthsFrom (read.map Mapped.char).getLast? (rest.map Mapped.char)) := by
  induction rest generalizing read with
  | nil =>
    rw [searchFrom, if_neg (by simp)]
    rfl
  | cons m rest ih =>
    have hnext := ih (read ++ [m])
    have hlast : ((read ++ [m]).map Mapped.char).getLast? = some m.char := by simp
    rw [hlast, List.append_assoc, List.singleton_append] at hnext
    rw [List.map_cons, Pattern.matchLengthsFrom, matchesFrom, ← hnext]
    cases h : p.matchLength? (read.map Mapped.char).getLast?
        (m.char :: rest.map Mapped.char) with
    | none =>
      rw [List.map_append, List.map_cons, searchFrom_of_no_match leftmost nonempty h]
      simp
    | some n => exact searchFrom_of_match leftmost nonempty h

/-- With leftmost searches the loop finds what trying each term at each character finds. -/
theorem searchMatches_eq (r : RegexMatcher) {engines : Engines}
    (leftmost : ∀ t ∈ r.terms, (engines.compile t.pattern).FindsLeftmost t.pattern)
    (nonempty : ∀ t ∈ r.terms, t.pattern.MatchesSome) (input : String) :
    r.searchMatches engines input = r.allMatches input :=
  List.flatMap_congr fun t ht => searchFrom_eq (leftmost t ht) (nonempty t ht) [] _

end RegexMatcher

/-! A search that tries each character -/

theorem le_start_of_leftmost? {length? : Option Char → List Char → Option Nat}
    {read rest : List Char} {range : ByteRange} (h : leftmost? length? read rest = some range) :
    byteLength read ≤ range.start := by
  induction rest generalizing read with
  | nil =>
    rw [leftmost?, Option.map_eq_some_iff] at h
    obtain ⟨n, -, rfl⟩ := h
    exact Nat.le_refl _
  | cons c rest ih =>
    rw [leftmost?] at h
    split at h
    · obtain rfl := Option.some.inj h
      exact Nat.le_refl _
    · have := ih h
      rw [byteLength_append] at this
      omega

namespace Pattern

/-- Splits a text at a byte. -/
def splitAt? (text : List Char) (pos : Nat) : Option (List Char × List Char) :=
  (takeBytes? pos text).bind fun read => (dropBytes? pos text).map fun rest => (read, rest)

theorem byteLength_of_takeBytes? {pos : Nat} {text read : List Char}
    (h : takeBytes? pos text = some read) : byteLength read = pos := by
  fun_induction takeBytes? pos text generalizing read with
  | case1 => obtain rfl := Option.some.inj h; rfl
  | case2 => contradiction
  | case3 n c rest hle ih =>
    obtain ⟨read, hread, rfl⟩ := Option.map_eq_some_iff.mp h
    rw [byteLength_cons, ih hread]
    omega
  | case4 => contradiction

/-- The search that tries the pattern at each character. -/
def search (p : Pattern) : Search where
  find text pos := (splitAt? text pos).bind fun s => leftmost? p.matchLength? s.1 s.2
  le_start text pos range h := by
    obtain ⟨⟨read, rest⟩, hsplit, hrange⟩ := Option.bind_eq_some_iff.mp h
    obtain ⟨read', hread, hrest⟩ := Option.bind_eq_some_iff.mp hsplit
    obtain ⟨rest', -, heq⟩ := Option.map_eq_some_iff.mp hrest
    obtain ⟨rfl, rfl⟩ := Prod.mk.inj heq
    rw [← byteLength_of_takeBytes? hread]
    exact le_start_of_leftmost? hrange

theorem findsLeftmost_search (p : Pattern) : p.search.FindsLeftmost p := by
  intro read rest
  simp [search, splitAt?]

end Pattern

end TermScan
