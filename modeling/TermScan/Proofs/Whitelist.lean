import Mathlib.Data.List.Induction
import TermScan.Proofs.Interval.Growth
import TermScan.Proofs.Places
import TermScan.Proofs.Ring
import TermScan.Proofs.Trie.Outputs
import TermScan.Whitelist

/-!
# Whitelisted phrases are found wherever they occur

Between two characters a scan stands at the longest suffix of what it has read, remembers as many
places as the longest phrase has characters, and holds the bytes of all occurrences so far. So each
occurrence adds its bytes once, when its last character is read, and of those that end together the
longest comes first.
-/
namespace TermScan

namespace Whitelist

/-! Occurrences -/

/-- The kept characters from index `first` to index `last`, both included, and the bytes that they
fill in the source. -/
structure Occurrence where
  first : Nat
  last : Nat
  bytes : Interval
  deriving DecidableEq, Repr

namespace Occurrence

/-- One of the words stands there. -/
structure Holds (x : Occurrence) (words : List (List Char)) (kept : List Mapped) : Prop where
  first_le_last : x.first ≤ x.last
  stands : between kept x.first (x.last + 1) ∈ words
  lower_eq : kept[x.first]?.map (·.site.span.first) = some x.bytes.lower
  upper_eq : kept[x.last]?.map (·.site.span.last) = some x.bytes.upper

/-- By increasing end, and at equal end the longest first. -/
def Precedes (x y : Occurrence) : Prop :=
  x.bytes.upper < y.bytes.upper ∨ x.bytes.upper = y.bytes.upper ∧ x.bytes.lower < y.bytes.lower

end Occurrence

/-- The occurrence of a word between two indices, if one stands there. -/
def occurrence? (words : List (List Char)) (kept : List Mapped) (i j : Nat) : Option Occurrence :=
  if between kept i (j + 1) ∈ words then
    (sourceSpan? kept i j).map fun span => ⟨i, j, ⟨span.first, span.last⟩⟩
  else none

/-- The occurrences that end at an index, the longest first. -/
def occurrencesAt (words : List (List Char)) (kept : List Mapped) (j : Nat) : List Occurrence :=
  (List.range (j + 1)).filterMap fun i => occurrence? words kept i j

/-- The occurrences that end before index `n`. -/
def occurrences (words : List (List Char)) (kept : List Mapped) (n : Nat) : List Occurrence :=
  (List.range n).flatMap (occurrencesAt words kept)

section Occurrences

variable {words : List (List Char)} {kept : List Mapped}

theorem occurrence?_eq_some_iff {i j : Nat} (hi : i < kept.length) (hj : j < kept.length)
    {x : Occurrence} :
    occurrence? words kept i j = some x ↔ between kept i (j + 1) ∈ words ∧
      ⟨i, j, ⟨kept[i].site.span.first, kept[j].site.span.last⟩⟩ = x := by
  unfold occurrence? sourceSpan?
  split_ifs with h <;> simp [h, List.getElem?_eq_getElem hi, List.getElem?_eq_getElem hj]

theorem mem_occurrencesAt_iff {j : Nat} (hj : j < kept.length) {x : Occurrence} :
    x ∈ occurrencesAt words kept j ↔ x.Holds words kept ∧ x.last = j := by
  simp only [occurrencesAt, List.mem_filterMap, List.mem_range]
  constructor
  · intro ⟨i, hi, hx⟩
    have hlt : i < kept.length := by omega
    obtain ⟨hstands, hx⟩ := (occurrence?_eq_some_iff hlt hj).mp hx
    subst hx
    exact ⟨⟨Nat.lt_succ_iff.mp hi, hstands, by rw [List.getElem?_eq_getElem hlt]; rfl,
      by rw [List.getElem?_eq_getElem hj]; rfl⟩, rfl⟩
  · intro ⟨⟨hle, hstands, hlower, hupper⟩, hlast⟩
    obtain ⟨i, j', lower, upper⟩ := x
    dsimp only at hlast hle hstands hlower hupper
    subst hlast
    have hlt : i < kept.length := by omega
    rw [List.getElem?_eq_getElem hlt] at hlower
    rw [List.getElem?_eq_getElem hj] at hupper
    refine ⟨i, by omega, (occurrence?_eq_some_iff hlt hj).mpr ⟨hstands, ?_⟩⟩
    rw [← Option.some.inj hlower, ← Option.some.inj hupper]

theorem mem_occurrences_iff {x : Occurrence} :
    x ∈ occurrences words kept kept.length ↔ x.Holds words kept := by
  simp only [occurrences, List.mem_flatMap, List.mem_range]
  constructor
  · intro ⟨j, hj, hx⟩
    exact ((mem_occurrencesAt_iff hj).mp hx).1
  · intro hx
    have hlast : x.last < kept.length := by
      by_contra h
      have hupper := hx.upper_eq
      rw [List.getElem?_eq_none (Nat.not_lt.mp h)] at hupper
      contradiction
    exact ⟨x.last, hlast, (mem_occurrencesAt_iff hlast).mpr ⟨hx, rfl⟩⟩

end Occurrences

/-- Spans of kept characters lie apart, so the bytes of occurrences come in the order of the
indices. -/
theorem pairwise_occurrences (words : List (List Char)) (p : Pipeline) (text : List Char) :
    (occurrences words (p.apply text) (p.apply text).length).Pairwise Occurrence.Precedes := by
  unfold occurrences
  rw [List.pairwise_flatMap]
  constructor
  · intro j hj
    have hj := List.mem_range.mp hj
    unfold occurrencesAt
    rw [List.pairwise_filterMap]
    refine List.pairwise_lt_range.imp_of_mem fun {i i'} hi hi' hlt x hx y hy => ?_
    have hi := List.mem_range.mp hi
    have hi' := List.mem_range.mp hi'
    obtain ⟨-, hx⟩ := (occurrence?_eq_some_iff (by omega) hj).mp hx
    obtain ⟨-, hy⟩ := (occurrence?_eq_some_iff (by omega) hj).mp hy
    subst hx hy
    have hlt' : i < (p.apply text).length := by omega
    have hfirst := site_first_le_last (Pipeline.site_mem_sites hlt')
    exact .inr ⟨rfl, hfirst.trans_lt (Pipeline.last_lt_first (by omega) (by omega) hlt)⟩
  · refine List.pairwise_lt_range.imp_of_mem fun {j j'} hj hj' hlt x hx y hy => ?_
    have hj := List.mem_range.mp hj
    have hj' := List.mem_range.mp hj'
    obtain ⟨hx, hlast⟩ := (mem_occurrencesAt_iff hj).mp hx
    obtain ⟨hy, hlast'⟩ := (mem_occurrencesAt_iff hj').mp hy
    have hupper := hx.upper_eq
    have hupper' := hy.upper_eq
    rw [hlast, List.getElem?_eq_getElem hj, Option.map_some, Option.some.injEq] at hupper
    rw [hlast', List.getElem?_eq_getElem hj', Option.map_some, Option.some.injEq] at hupper'
    have hapart := Pipeline.last_lt_first hj hj' hlt
    have hspan := site_first_le_last (Pipeline.site_mem_sites hj')
    exact .inl (by omega)

/-! Construction -/

/-- A node is marked if it was before or a word ends there. -/
theorem getD_foldl_mark (node : List Char → Nat) (words : List (List Char)) (marks : Array Bool)
    {x : Nat} (hx : x < marks.size) :
    (words.foldl (fun marks w => marks.setIfInBounds (node w) true) marks)[x]?.getD false =
      (marks[x]?.getD false || words.any (node · == x)) := by
  induction words generalizing marks with
  | nil => simp
  | cons w words ih =>
    rw [List.foldl_cons, ih _ (by simpa using hx), Array.getElem?_setIfInBounds, List.any_cons]
    by_cases h : node w = x
    · simp [h, hx]
    · simp [h, beq_eq_false_iff_ne.mpr h]

/-- A phrase ends at a node. -/
def isEnd (w : Whitelist) (x : Nat) : Bool := w.ends[x]?.getD false

section Construction

variable {words : List (List Char)} {p : Pipeline}

/-- The node of a string is marked if and only if the string is a word. -/
theorem isEnd_ofWords {s : List Char} {x : Nat} (hs : (Trie.ofWords words).find? s = some x) :
    (ofWords words p).isEnd x = decide (s ∈ words) := by
  have sound := Trie.sound_ofWords words
  have hx := (sound.find?_spec hs).1
  change (words.foldl (fun marks w => marks.setIfInBounds
    (((Trie.ofWords words).find? w).getD Trie.root) true)
    (Array.replicate (Trie.ofWords words).size false))[x]?.getD false = _
  rw [getD_foldl_mark _ _ _ (by simpa using hx), Array.getElem?_replicate, if_pos hx,
    Option.getD_some, Bool.false_or, Bool.eq_iff_iff, List.any_eq_true, decide_eq_true_eq]
  constructor
  · intro ⟨w, hw, hnode⟩
    have held : ((Trie.ofWords words).find? w).isSome :=
      Trie.find?_ofWords_isSome_iff.mpr (.inr ⟨w, hw, List.prefix_rfl⟩)
    obtain ⟨y, hy⟩ := Option.isSome_iff_exists.mp held
    rw [hy, Option.getD_some, beq_iff_eq] at hnode
    subst hnode
    rwa [sound.find?_injective hs hy]
  · intro h
    exact ⟨s, h, by rw [hs, Option.getD_some, beq_iff_eq]⟩

theorem markedAt_isEnd (s : List Char) :
    (Trie.ofWords words).markedAt (ofWords words p).isEnd s =
      if s ∈ words then (Trie.ofWords words).find? s else none := by
  unfold Trie.markedAt
  cases hs : (Trie.ofWords words).find? s with
  | none => simp
  | some x =>
    rw [Option.filter_some, isEnd_ofWords hs]
    by_cases h : s ∈ words <;> simp [h]

/-- Where no word is empty, none ends at the root. -/
theorem isEnd_root (filled : [] ∉ words) : (ofWords words p).isEnd Trie.root = false := by
  rw [isEnd_ofWords (Trie.find?_nil _), decide_eq_false_iff_not]
  exact filled

/-- At the state of a text the words end that the text ends with, the longest first. -/
theorem endsAt_state (filled : [] ∉ words) (text : List Char) :
    (ofWords words p).endsAt ((Trie.ofWords words).state text) =
      text.tails.filterMap fun s =>
        if s ∈ words then (Trie.ofWords words).find? s else none := by
  have hfind := Trie.find?_longest (Trie.ofWords words) text
  have hchain : (LinkedTrie.ofTrie (Trie.ofWords words)).chain
      ((LinkedTrie.ofTrie (Trie.ofWords words)).outputLinks (ofWords words p).isEnd)
      ((Trie.ofWords words).state text) =
        (Trie.ofWords words).markedBelow (ofWords words p).isEnd
          ((Trie.ofWords words).longest text) := by
    rw [LinkedTrie.chain_outputLinks (Trie.sound_ofWords words) hfind,
      Trie.chained_eq_of_not_accept (isEnd_root filled)]
  have hhead : (Trie.ofWords words).markedAt (ofWords words p).isEnd
      ((Trie.ofWords words).longest text) =
        if (ofWords words p).isEnd ((Trie.ofWords words).state text) then
          some ((Trie.ofWords words).state text) else none := by
    rw [Trie.markedAt, hfind, Option.filter_some]
  calc (ofWords words p).endsAt ((Trie.ofWords words).state text)
    _ = ((Trie.ofWords words).markedAt (ofWords words p).isEnd
          ((Trie.ofWords words).longest text)).toList ++
        (Trie.ofWords words).markedBelow (ofWords words p).isEnd
          ((Trie.ofWords words).longest text) := by
      rw [hhead, ← hchain]
      change (if (ofWords words p).isEnd _ then _ else _) = _
      split_ifs <;> rfl
    _ = text.tails.filterMap ((Trie.ofWords words).markedAt (ofWords words p).isEnd) := by
      rw [← Trie.filterMap_tails,
        ← Trie.filterMap_tails_longest fun s hs => Trie.markedAt_of_none hs]
    _ = _ := by simp only [markedAt_isEnd]

end Construction

theorem build_eq_ok_iff {phrases : List String} {p : Pipeline} {w : Whitelist} :
    build phrases p = .ok w ↔ [] ∉ words phrases p ∧ ofWords (words phrases p) p = w := by
  cases h : (words phrases p).findIdx? List.isEmpty with
  | none =>
    have hall := List.findIdx?_eq_none_iff.mp h
    have hfilled : [] ∉ words phrases p := fun hmem => by simpa using hall [] hmem
    simp [build, h, hfilled]
  | some index =>
    obtain ⟨hlt, hempty, -⟩ := List.findIdx?_eq_some_iff_getElem.mp h
    have hmem : [] ∈ words phrases p := by
      rw [← List.isEmpty_iff.mp hempty]
      exact List.getElem_mem hlt
    simp [build, h, hmem]

/-! States -/

section States

variable (words : List (List Char)) (p : Pipeline) (kept : List Mapped)

/-- The places remembered before the character at an index is read. -/
def recentAt (k : Nat) : Ring Site :=
  ((kept.take k).map Mapped.site).foldl Ring.push (.empty (ofWords words p).longest)

/-- The state before the character at an index is read. -/
def stateAt (k : Nat) : State :=
  ⟨(Trie.ofWords words).state (between kept 0 k), recentAt words p kept k,
    IntervalSet.empty.insertAll ((occurrences words kept k).map Occurrence.bytes)⟩

variable {words p kept}

theorem stateAt_zero : stateAt words p kept 0 = (ofWords words p).start := by
  have hstate : (Trie.ofWords words).state [] = Trie.root := Trie.state_of_find? (Trie.find?_nil _)
  rw [stateAt, between_self, hstate]
  rfl

/-- The bytes of the words that end at an index are found by the lengths of the words. -/
theorem filterMap_endsAt (filled : [] ∉ words) {k : Nat} (hk : k < kept.length) :
    ((ofWords words p).endsAt ((Trie.ofWords words).state (between kept 0 (k + 1)))).filterMap
        (fun x => ((recentAt words p kept (k + 1)).get?
          ((Trie.ofWords words).depth x - 1)).map fun site =>
            Interval.mk site.span.first kept[k].site.span.last) =
      (occurrencesAt words kept k).map Occurrence.bytes := by
  have hnone : between kept (k + 1) (k + 1) ∉ words := by rwa [between_self]
  rw [endsAt_state filled, tails_between kept hk, List.range_succ, List.map_append,
    List.filterMap_append,
    List.filterMap_append, occurrencesAt, List.map_filterMap]
  simp only [List.map_cons, List.map_nil, List.filterMap_cons, if_neg hnone, List.filterMap_nil,
    List.append_nil, List.filterMap_map, List.filterMap_filterMap]
  refine List.filterMap_congr fun i hi => ?_
  have hi := List.mem_range.mp hi
  rw [Function.comp_apply, occurrence?]
  split_ifs with hword
  · have hlength : (between kept i (k + 1)).length = k + 1 - i := length_between kept hk
    have held : ((Trie.ofWords words).find? (between kept i (k + 1))).isSome :=
      Trie.find?_ofWords_isSome_iff.mpr (.inr ⟨_, hword, List.prefix_rfl⟩)
    obtain ⟨x, hx⟩ := Option.isSome_iff_exists.mp held
    have hdepth := ((Trie.sound_ofWords words).find?_spec hx).2
    have hlongest : (between kept i (k + 1)).length ≤ (ofWords words p).longest :=
      (Ring.le_foldl_max List.length words 0).2 _ hword
    have hfirst : (recentAt words p kept (k + 1)).get? ((Trie.ofWords words).depth x - 1) =
        some kept[i].site := by
      have hback : (Trie.ofWords words).depth x - 1 = k - i := by omega
      have hindex : k + 1 - 1 - (k - i) = i := by omega
      have hreach : k - i < (ofWords words p).longest := by omega
      rw [recentAt, hback, get?_sites_take (by omega) hk hreach, hindex,
        List.getElem?_eq_getElem (by omega)]
      rfl
    rw [hx, Option.bind_some, hfirst]
    simp [sourceSpan?, List.getElem?_eq_getElem hk, List.getElem?_eq_getElem (hi.trans_le hk)]
  · rfl

/-- A step leads from one index to the next. -/
theorem step_stateAt (filled : [] ∉ words) {k : Nat} (hk : k < kept.length) :
    (ofWords words p).step (stateAt words p kept k) kept[k] = stateAt words p kept (k + 1) := by
  have hnode : (ofWords words p).linked.step ((Trie.ofWords words).state (between kept 0 k))
      kept[k].char = (Trie.ofWords words).state (between kept 0 (k + 1)) := by
    rw [between_succ kept k.zero_le hk]
    exact LinkedTrie.step_state (Trie.sound_ofWords words) _ _
  have hrecent : (recentAt words p kept k).push kept[k].site = recentAt words p kept (k + 1) :=
    foldl_push_sites_succ _ hk
  have hfound : (IntervalSet.empty.insertAll ((occurrences words kept k).map
      Occurrence.bytes)).insertAll ((occurrencesAt words kept k).map Occurrence.bytes) =
        IntervalSet.empty.insertAll ((occurrences words kept (k + 1)).map Occurrence.bytes) := by
    rw [occurrences, occurrences, List.range_succ, List.flatMap_append, List.flatMap_singleton,
      List.map_append, IntervalSet.insertAll, IntervalSet.insertAll, IntervalSet.insertAll,
      List.foldl_append]
  have htrie : (ofWords words p).linked.trie = Trie.ofWords words := rfl
  simp only [step, stateAt, hnode, hrecent, htrie, filterMap_endsAt filled hk, hfound]

theorem foldl_step (filled : [] ∉ words) {n : Nat} (hn : n ≤ kept.length) :
    (kept.take n).foldl (ofWords words p).step (ofWords words p).start =
      stateAt words p kept n := by
  induction n with
  | zero => exact stateAt_zero.symm
  | succ n ih =>
    rw [List.take_succ_eq_append_getElem hn, List.foldl_append, ih (Nat.le_of_succ_le hn)]
    exact step_stateAt filled hn

/-- A scan holds the bytes of all occurrences. -/
theorem scan_eq (p : Pipeline) (filled : [] ∉ words) (text : List Char) :
    (ofWords words p).scan text = IntervalSet.empty.insertAll
      ((occurrences words (p.apply text) (p.apply text).length).map Occurrence.bytes) := by
  have hrun := foldl_step (p := p) filled (Nat.le_refl (p.apply text).length)
  rw [List.take_length] at hrun
  have hpipeline : (ofWords words p).pipeline = p := rfl
  unfold scan
  split_ifs with hempty
  · -- there is no word at all, since none is empty
    have hnone : words = [] := by
      refine List.eq_nil_iff_forall_not_mem.mpr fun word hword => filled ?_
      have hlongest : word.length ≤ (ofWords words p).longest :=
        (Ring.le_foldl_max List.length words 0).2 word hword
      rw [isEmpty, beq_iff_eq] at hempty
      rwa [← List.eq_nil_of_length_eq_zero (by omega : word.length = 0)]
    subst hnone
    have hfound : occurrences [] (p.apply text) (p.apply text).length = [] := by
      refine List.eq_nil_iff_forall_not_mem.mpr fun x hx => ?_
      exact List.not_mem_nil (mem_occurrences_iff.mp hx).stands
    rw [hfound]
    rfl
  · rw [hpipeline, hrun]
    rfl

end States

/-- A scan finds each occurrence of each phrase once. As long as they are fewer than ten they are
listed as they end, and of those that end together the longest comes first; from then on this list
is sorted by lower bound in a stable way. -/
theorem scan_exact {phrases : List String} {p : Pipeline} {w : Whitelist}
    (built : build phrases p = .ok w) (text : List Char) :
    ∃ found : List Occurrence,
      (∀ x, x ∈ found ↔ x.Holds (words phrases p) (p.apply text)) ∧
      found.Pairwise Occurrence.Precedes ∧
      (w.scan text).toList.Perm (found.map Occurrence.bytes) ∧
      (w.scan text).toList =
        if found.length < 10 then found.map Occurrence.bytes
        else sortByLower (found.map Occurrence.bytes) := by
  obtain ⟨filled, rfl⟩ := build_eq_ok_iff.mp built
  have hscan := scan_eq p filled text
  have hlist := IntervalSet.toList_insertAll_empty
    ((occurrences (words phrases p) (p.apply text) (p.apply text).length).map Occurrence.bytes)
  rw [← hscan, List.length_map] at hlist
  refine ⟨_, fun x => mem_occurrences_iff, pairwise_occurrences _ p text, ?_, hlist⟩
  rw [hlist]
  split_ifs
  · exact List.Perm.refl _
  · exact List.mergeSort_perm _ _

/-- A pipeline that drops a character, and phrases of which two come to the same word. -/
theorem scan_exact_sample :
    let p : Pipeline := ⟨[.mapping fun c => if c = '-' then none else some c]⟩
    let phrases := ["a", "aa", "a-a", "a-aa"]
    let w := ofWords (words phrases p) p
    let listed := (w.scan "é-aaaaa".toList).toList
    build phrases p = .ok w ∧
      listed = [⟨3, 3⟩, ⟨3, 4⟩, ⟨3, 5⟩, ⟨4, 4⟩, ⟨4, 5⟩, ⟨4, 6⟩, ⟨5, 5⟩, ⟨5, 6⟩, ⟨5, 7⟩, ⟨6, 6⟩,
        ⟨6, 7⟩, ⟨7, 7⟩] ∧
      ∃ found : List Occurrence,
        (∀ x, x ∈ found ↔ x.Holds (words phrases p) (p.apply "é-aaaaa".toList)) ∧
        found.Pairwise Occurrence.Precedes ∧ listed.Perm (found.map Occurrence.bytes) ∧
        listed = if found.length < 10 then found.map Occurrence.bytes
          else sortByLower (found.map Occurrence.bytes) := by
  intro p phrases w listed
  have built : build phrases p = .ok w := rfl
  exact ⟨built, by decide +kernel, scan_exact built _⟩

end Whitelist

end TermScan
