import TermScan.Proofs.Transform.Spaces
import TermScan.Proofs.Whitelist

/-!
# Phrases in every context

A phrase is transformed on its own when it is listed, and behind other characters when it is met. It
is found wherever both give the same characters: always, if no transformer remembers what it has
read, and under the pipeline for English phrases if no space stands at the ends of the phrase.
-/
namespace TermScan

/-- What a pipeline keeps of the characters of a text that fill bytes from `first` on and before
`stop`. -/
def Pipeline.keptWithin (p : Pipeline) (text : List Char) (first stop : Nat) : List Mapped :=
  (p.apply text).filter fun m => first ≤ m.site.span.first && m.site.span.last < stop

/-- A part of a text is read from the state that the text before it leads to. -/
theorem Pipeline.keptWithin_eq (p : Pipeline) {text : List Char} {xs part ys : List Site}
    (h : sites text = xs ++ part ++ ys) :
    p.keptWithin text (byteLength (xs.map Site.char)) (byteLength ((xs ++ part).map Site.char)) =
      ((p.start.readSites xs).2.readSites part).1 := by
  obtain ⟨kept, happly, hkept⟩ := p.exists_apply_eq_append h
  have hfirst : sites text = [] ++ xs ++ (part ++ ys) := by rw [h, List.append_assoc]; rfl
  have hlast : sites text = xs ++ part ++ ys ++ [] := by rw [h, List.append_nil]
  rw [keptWithin, happly, List.filter_append, List.filter_append, List.filter_eq_nil_iff.mpr,
    List.filter_eq_self.mpr, List.filter_eq_nil_iff.mpr, List.nil_append, List.append_nil]
  · -- behind the part
    intro m hm
    have hspan := span_of_mem_part hlast (hkept m hm)
    have hle := site_first_le_last (show m.site ∈ sites text by simp [h, hkept m hm])
    simp only [Bool.and_eq_true, decide_eq_true_eq]
    omega
  · -- in the part
    intro m hm
    have hspan := span_of_mem_part h (Run.site_mem_of_mem_readSites hm)
    simpa using hspan
  · -- before the part
    intro m hm
    have hmem := Run.site_mem_of_mem_readSites hm
    have hspan := span_of_mem_part hfirst hmem
    have hle := site_first_le_last (show m.site ∈ sites text by simp [h, hmem])
    rw [List.nil_append] at hspan
    simp only [Bool.and_eq_true, decide_eq_true_eq]
    omega

namespace Whitelist

/-- Where what is kept of a part of a text is a word, the word stands. -/
theorem Occurrence.holds_of_append {words : List (List Char)} {part : List Mapped}
    {first last : Mapped} (front rest : List Mapped)
    (hfirst : part.head? = some first) (hlast : part.getLast? = some last)
    (stands : part.map Mapped.char ∈ words) :
    Holds ⟨front.length, front.length + part.length - 1,
      ⟨first.site.span.first, last.site.span.last⟩⟩ words (front ++ part ++ rest) := by
  have hpos : 0 < part.length := List.length_pos_of_mem (List.mem_of_mem_head? hfirst)
  refine ⟨by dsimp only; omega, ?_, ?_, ?_⟩
  · have hbetween : between (front ++ part ++ rest) front.length
        (front.length + part.length - 1 + 1) = part.map Mapped.char := by
      rw [between, Nat.sub_add_cancel (by omega), ← List.length_append, List.take_left,
        List.drop_left]
    rwa [hbetween]
  · have hat : (front ++ part ++ rest)[front.length]? = some first := by
      rw [List.getElem?_append_left (by simp; omega), List.getElem?_append_right (Nat.le_refl _),
        Nat.sub_self, ← List.head?_eq_getElem?, hfirst]
    rw [hat]
    rfl
  · have hat : (front ++ part ++ rest)[front.length + part.length - 1]? = some last := by
      rw [List.getElem?_append_left (by simp; omega), List.getElem?_append_right (by omega),
        show front.length + part.length - 1 - front.length = part.length - 1 by omega,
        ← List.getLast?_eq_getElem?, hlast]
    rw [hat]
    rfl

/-- A scan contains a query if an occurrence does. -/
theorem anyContains_scan_iff {phrases : List String} {p : Pipeline} {w : Whitelist}
    (built : build phrases p = .ok w) (text : List Char) (query : Interval) :
    (w.scan text).anyContains query ↔
      ∃ x : Occurrence, x.Holds (words phrases p) (p.apply text) ∧ x.bytes.contains query := by
  obtain ⟨filled, rfl⟩ := build_eq_ok_iff.mp built
  obtain ⟨sound, hmem⟩ := IntervalSet.insertAll_spec IntervalSet.sound_empty
    ((occurrences (words phrases p) (p.apply text) (p.apply text).length).map Occurrence.bytes)
  rw [scan_eq p filled, IntervalSet.anyContains_iff sound]
  simp only [hmem, IntervalSet.toList_empty, List.not_mem_nil, false_or, List.mem_map,
    mem_occurrences_iff, exists_exists_and_eq_and]

section Listed

variable {phrases : List String} {p : Pipeline} {w : Whitelist} {phrase : String}

/-- A phrase is found where it is transformed as it is on its own. -/
theorem anyContains_of_part (built : build phrases p = .ok w) (listed : phrase ∈ phrases)
    {text : List Char} {xs part ys : List Site} (h : sites text = xs ++ part ++ ys)
    (hchars : ((p.start.readSites xs).2.readSites part).1.map Mapped.char =
      p.chars phrase.toList) :
    let kept := ((p.start.readSites xs).2.readSites part).1
    ∃ first last, kept.head? = some first ∧ kept.getLast? = some last ∧
      (w.scan text).anyContains ⟨first.site.span.first, last.site.span.last⟩ := by
  intro kept
  have hword : p.chars phrase.toList ∈ words phrases p := List.mem_map_of_mem listed
  have hkept : kept ≠ [] := by
    intro hnone
    rw [← hchars, show ((p.start.readSites xs).2.readSites part).1 = [] from hnone] at hword
    exact (build_eq_ok_iff.mp built).1 hword
  have hfirst := List.head?_eq_some_head hkept
  have hlast := List.getLast?_eq_some_getLast hkept
  refine ⟨_, _, hfirst, hlast, ?_⟩
  obtain ⟨rest, happly, -⟩ := p.exists_apply_eq_append h
  have holds := Occurrence.holds_of_append (p.start.readSites xs).1 rest hfirst hlast
    (hchars ▸ hword)
  rw [← happly] at holds
  exact (anyContains_scan_iff built text _).mpr ⟨_, holds, by simp [Interval.contains]⟩

/-- If no transformer remembers what it has read, a listed phrase is found wherever it stands. -/
theorem anyContains_of_stateless (built : build phrases p = .ok w) (listed : phrase ∈ phrases)
    (stateless : p.IsStateless) (before after : List Char) :
    let text := before ++ phrase.toList ++ after
    let kept := p.keptWithin text (byteLength before) (byteLength (before ++ phrase.toList))
    ∃ first last, kept.head? = some first ∧ kept.getLast? = some last ∧
      (w.scan text).anyContains ⟨first.site.span.first, last.site.span.last⟩ := by
  intro text kept
  obtain ⟨xs, part, ys, hsites, hxs, hpart, -⟩ := exists_sites_append before phrase.toList after
  have fixed := Run.isFixed_start stateless
  have hkept : kept = ((p.start.readSites xs).2.readSites part).1 := by
    rw [← p.keptWithin_eq hsites, List.map_append, hxs, hpart]
  rw [hkept]
  refine anyContains_of_part built listed hsites ?_
  rw [(fixed.readSites_eq xs).2, (fixed.readSites_eq part).1, hpart, Pipeline.chars, p.apply_eq,
    (fixed.readSites_eq _).1, map_char_sites]

/-- A phrase without a space at its ends is found wherever it stands in an English text. -/
theorem anyContains_of_english (built : build phrases .englishWhitelist = .ok w)
    (listed : phrase ∈ phrases) (hhead : phrase.toList.head? ≠ some ' ')
    (hlast : phrase.toList.getLast? ≠ some ' ') (before after : List Char) :
    (w.scan (before ++ phrase.toList ++ after)).anyContains
      ⟨byteLength before, byteLength before + byteLength phrase.toList - 1⟩ := by
  obtain ⟨xs, part, ys, hsites, hxs, hpart, -⟩ := exists_sites_append before phrase.toList after
  obtain ⟨-, spaced, s, hstate, hs⟩ := Run.readSites_squeezing Collapse.spaces_start xs
  rw [← Pipeline.start_englishWhitelist] at hstate
  have hread := (Run.readSites_squeezing hs part).1
  rw [hpart, squeeze_of_head hhead, ← Pipeline.chars_englishWhitelist, ← hstate] at hread
  obtain ⟨first, last, hfirst, hgetLast, hcontains⟩ :=
    anyContains_of_part built listed hsites hread
  have hne : part ≠ [] := by
    rintro rfl
    simp [Run.readSites] at hfirst
  have hpartHead := List.head?_eq_some_head hne
  have hpartLast := List.getLast?_eq_some_getLast hne
  rw [← hpart, List.head?_map, hpartHead, Option.map_some, Ne, Option.some.injEq] at hhead
  rw [← hpart, List.getLast?_map, hpartLast, Option.map_some, Ne, Option.some.injEq] at hlast
  rw [hstate, Run.head?_readSites_squeezing hs hpartHead hhead, Option.some.injEq] at hfirst
  rw [hstate, Run.getLast?_readSites_squeezing hs hpartLast hlast, Option.some.injEq] at hgetLast
  obtain ⟨hstart, hstop⟩ := borders_of_sites_eq hsites hpartHead hpartLast
  rw [hxs] at hstart
  rw [hxs, hpart, byteLength_append] at hstop
  rw [← hfirst, ← hgetLast, ← hstart] at hcontains
  rwa [hstop, Nat.add_sub_cancel]

end Listed

/-- A listed phrase is found wherever it stands in a text, whatever other phrases are listed. If no
transformer remembers what it has read, some span contains the bytes from the first to the last
character of the phrase that is kept there. Under the pipeline for English phrases some span
contains all bytes of a phrase that neither begins nor ends with a space. -/
theorem anyContains_phrase {phrases : List String} {p : Pipeline} {w : Whitelist}
    (built : build phrases p = .ok w) {phrase : String} (listed : phrase ∈ phrases)
    (before after : List Char) :
    let text := before ++ phrase.toList ++ after
    let kept := p.keptWithin text (byteLength before) (byteLength (before ++ phrase.toList))
    (p.IsStateless → ∃ first last, kept.head? = some first ∧ kept.getLast? = some last ∧
      (w.scan text).anyContains ⟨first.site.span.first, last.site.span.last⟩) ∧
    (p = .englishWhitelist → phrase.toList.head? ≠ some ' ' → phrase.toList.getLast? ≠ some ' ' →
      (w.scan text).anyContains
        ⟨byteLength before, byteLength before + byteLength phrase.toList - 1⟩) := by
  refine ⟨fun stateless => anyContains_of_stateless built listed stateless before after, ?_⟩
  rintro rfl hhead hlast
  exact anyContains_of_english built listed hhead hlast before after

/-- A transformer that drops a character at both ends of the phrase; and an English phrase behind a
run of the character that it begins with. -/
theorem anyContains_phrase_sample :
    let p : Pipeline := ⟨[.mapping fun c => if c = '-' then none else some c]⟩
    let phrases := ["aa", "-ab-"]
    let w := ofWords (words phrases p) p
    let text := "éa".toList ++ "-ab-".toList ++ "b".toList
    let kept := p.keptWithin text 3 7
    let phrases' := ["b", "a  b"]
    let w' := ofWords (words phrases' .englishWhitelist) .englishWhitelist
    (build phrases p = .ok w ∧ p.IsStateless ∧
      kept.map (fun m => m.site.span) = [⟨4, 4⟩, ⟨5, 5⟩] ∧
      ∃ first last, kept.head? = some first ∧ kept.getLast? = some last ∧
        (w.scan text).anyContains ⟨first.site.span.first, last.site.span.last⟩) ∧
    build phrases' .englishWhitelist = .ok w' ∧
      (w'.scan ("Aa".toList ++ "a  b".toList ++ "b ".toList)).anyContains ⟨2, 5⟩ := by
  intro p phrases w text kept phrases' w'
  have built : build phrases p = .ok w := rfl
  have built' : build phrases' .englishWhitelist = .ok w' := rfl
  have stateless : p.IsStateless := by simp [p, Pipeline.IsStateless, Transformer.isStateless]
  refine ⟨⟨built, stateless, by decide, ?_⟩, built', ?_⟩
  · exact (anyContains_phrase built (by decide) "éa".toList "b".toList).1 stateless
  · exact (anyContains_phrase built' (by decide) "Aa".toList "b ".toList).2 rfl (by decide)
      (by decide)

end Whitelist

end TermScan
