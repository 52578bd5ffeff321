import TermScan.Proofs.Transform.Runs
import TermScan.Transform.Builtin

/-!
# Single spaces

The pipeline for whitelisted English phrases lowers letters and keeps one space of several. All that
its run has to remember is whether a space was read last, since runs of other characters are never
cut. What it keeps of a text is thus known from this and the text alone, and the first and the last
character are kept unless they are spaces.
-/
namespace TermScan

theorem limit_singleSpaces (c : Char) :
    Pipeline.singleSpaces.limit c = if c = ' ' then 1 else Collapse.largestCount := by
  simp only [Thresholds.limit, Pipeline.singleSpaces, List.foldl_cons, List.foldl_nil, eq_comm]

/-- No other character is lowered to a space. -/
theorem toLower_eq_space_iff {c : Char} : c.toLower = ' ' ↔ c = ' ' := by
  unfold Char.toLower
  split
  · simp only [Char.ext_iff]
    grind
  · rfl

/-- Lowers letters and drops each space behind another one; `spaced` says that a space stands in
front. -/
def squeeze : Bool → List Char → List Char
  | _, [] => []
  | spaced, c :: rest =>
    if spaced && c == ' ' then squeeze true rest else c.toLower :: squeeze (c == ' ') rest

/-- A space in front makes no difference to a text that begins with another character. -/
theorem squeeze_of_head {text : List Char} (h : text.head? ≠ some ' ') (spaced : Bool) :
    squeeze spaced text = squeeze false text := by
  cases text with
  | nil => rfl
  | cons c rest =>
    have hc : (c == ' ') = false := by simpa using h
    simp [squeeze, hc]

/-! States -/

/-- A collapse of spaces that has read a space last if `spaced`. -/
structure Collapse.Spaces (spaced : Bool) (s : Collapse) : Prop where
  thresholds_eq : s.thresholds = Pipeline.singleSpaces
  last_eq : (s.last == some ' ') = spaced
  count_pos : spaced → 0 < s.count

theorem Collapse.spaces_start : (Collapse.start Pipeline.singleSpaces).Spaces false :=
  ⟨rfl, rfl, by simp⟩

/-- A character is dropped only if it is a space behind another one. -/
theorem Collapse.Spaces.step {spaced : Bool} {s : Collapse} (h : s.Spaces spaced) (c : Char) :
    (s.step c).1 = (if spaced && c == ' ' then none else some c) ∧
      (s.step c).2.Spaces (c == ' ') := by
  refine ⟨?_, h.thresholds_eq, rfl, fun _ => ?_⟩
  · rw [Collapse.step, h.thresholds_eq, limit_singleSpaces, ← h.last_eq]
    by_cases hc : c = ' '
    · subst hc
      by_cases hlast : s.last = some ' '
      · have := h.count_pos (by rw [← h.last_eq, hlast]; rfl)
        simp [hlast, largestCount]
        omega
      · simp [hlast]
    · have hle : (if s.last = some c then min (s.count + 1) largestCount else 1) ≤
          largestCount := by
        rw [largestCount]
        split_ifs <;> omega
      rw [if_neg hc]
      simp [hle, hc]
  · change 0 < if s.last = some c then min (s.count + 1) largestCount else 1
    rw [largestCount]
    split_ifs <;> omega

namespace Run

/-- A run for English phrases with its collapse in a certain state. -/
def squeezing (s : Collapse) : Run := ⟨[.ofTransformer .lowercase, .collapsing s]⟩

theorem step_squeezing (s : Collapse) (c : Char) :
    (squeezing s).step c = ((s.step c.toLower).1, squeezing (s.step c.toLower).2) := by
  rcases hstep : s.step c.toLower with ⟨_ | d, s'⟩ <;>
    simp [squeezing, step, stepStages, Stage.ofTransformer, Transformer.lowercase, Stage.step,
      hstep]

section Squeezing

variable {spaced : Bool} {s : Collapse}

theorem readSites_squeezing (h : s.Spaces spaced) (places : List Site) :
    ((squeezing s).readSites places).1.map Mapped.char = squeeze spaced (places.map Site.char) ∧
      ∃ spaced' s', ((squeezing s).readSites places).2 = squeezing s' ∧ s'.Spaces spaced' := by
  induction places generalizing spaced s with
  | nil => exact ⟨rfl, spaced, s, rfl, h⟩
  | cons place places ih =>
    obtain ⟨hkept, hs'⟩ := h.step place.char.toLower
    obtain ⟨hchars, hstate⟩ := ih hs'
    have hspace : (place.char.toLower == ' ') = (place.char == ' ') := by
      rw [Bool.eq_iff_iff, beq_iff_eq, beq_iff_eq, toLower_eq_space_iff]
    rw [readSites, step_squeezing, hkept, List.map_cons, squeeze, ← hspace]
    split_ifs with hdropped
    · rw [(Bool.and_eq_true_iff.mp hdropped).2] at hchars
      exact ⟨hchars, hstate⟩
    · exact ⟨congrArg (_ :: ·) hchars, hstate⟩

variable {places : List Site} {place : Site}

/-- What is no space is kept, so it stays first. -/
theorem head?_readSites_squeezing (h : s.Spaces spaced) (hhead : places.head? = some place)
    (hplace : place.char ≠ ' ') :
    ((squeezing s).readSites places).1.head? = some ⟨place.char.toLower, place⟩ := by
  obtain ⟨rest, rfl⟩ := List.head?_eq_some_iff.mp hhead
  have hspace : (place.char.toLower == ' ') = false := by simp [toLower_eq_space_iff, hplace]
  have hkept := (h.step place.char.toLower).1
  rw [hspace, Bool.and_false, if_neg Bool.false_ne_true] at hkept
  rw [readSites, step_squeezing, hkept]
  rfl

/-- What is no space is kept, so it stays last. -/
theorem getLast?_readSites_squeezing (h : s.Spaces spaced)
    (hlast : places.getLast? = some place) (hplace : place.char ≠ ' ') :
    ((squeezing s).readSites places).1.getLast? = some ⟨place.char.toLower, place⟩ := by
  obtain ⟨init, rfl⟩ := List.getLast?_eq_some_iff.mp hlast
  obtain ⟨-, spaced', s', hstate, hs'⟩ := readSites_squeezing h init
  have hkept : ((squeezing s').readSites [place]).1.head? = some ⟨place.char.toLower, place⟩ :=
    head?_readSites_squeezing hs' rfl hplace
  have hlength := length_readSites_le (squeezing s') [place]
  obtain ⟨rest, hrest⟩ := List.head?_eq_some_iff.mp hkept
  obtain rfl : rest = [] := by
    rw [hrest] at hlength
    exact List.eq_nil_of_length_eq_zero (by simpa using hlength)
  rw [readSites_append, hstate, hrest, List.getLast?_append]
  rfl

end Squeezing

end Run

theorem Pipeline.start_englishWhitelist :
    englishWhitelist.start = .squeezing (.start singleSpaces) := rfl

theorem Pipeline.chars_englishWhitelist (text : List Char) :
    englishWhitelist.chars text = squeeze false text := by
  have hread := (Run.readSites_squeezing Collapse.spaces_start (sites text)).1
  rwa [map_char_sites, ← start_englishWhitelist, ← apply_eq] at hread

end TermScan
