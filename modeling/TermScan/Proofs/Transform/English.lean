import TermScan.Proofs.Transform.Collapse
import TermScan.Proofs.Transform.Spaces

/-!
# Normalised English stays as it is

Both pipelines for English map each character through some maps and collapse what comes of it. A
character that one of these maps has made is left alone by all of them: folded look-alikes are
letters, digits or what they were, and neither what replaces a sign nor a lowered letter is the sign
for another letter. As every threshold admits a character, collapsed runs stay apart. So nothing is
left to do to a text that has been normalised.
-/
namespace TermScan

/-! A character that is mapped -/

/-- What maps make of a character, one after the other. -/
def mapThrough (maps : List (Char → Char)) (c : Char) : Char := maps.foldl (fun c f => f c) c

/-- No map changes the character. -/
def IsSettled (maps : List (Char → Char)) (c : Char) : Prop := ∀ f ∈ maps, f c = c

theorem mapThrough_of_settled {maps : List (Char → Char)} {c : Char} (h : IsSettled maps c) :
    mapThrough maps c = c := by
  induction maps with
  | nil => rfl
  | cons f maps ih =>
    obtain ⟨hf, hmaps⟩ := List.forall_mem_cons.mp h
    rw [mapThrough, List.foldl_cons, hf]
    exact ih hmaps

/-! Maps, and a collapse behind them -/

/-- Stages that map each character, and a collapse in a certain state behind them. -/
def Run.mapped (maps : List (Char → Char)) (s : Collapse) : Run :=
  ⟨maps.map (fun f => .mapping fun c => some (f c)) ++ [.collapsing s]⟩

/-- Transformers that map each character, and one that collapses behind them. -/
def Pipeline.mapped (maps : List (Char → Char)) (t : Thresholds) : Pipeline :=
  ⟨maps.map (fun f => .mapping fun c => some (f c)) ++ [.collapsing t]⟩

namespace Run

variable (maps : List (Char → Char)) (s : Collapse)

theorem step_mapped (c : Char) :
    (mapped maps s).step c =
      ((s.step (mapThrough maps c)).1, mapped maps (s.step (mapThrough maps c)).2) := by
  have stages (maps : List (Char → Char)) (c : Char) :
      stepStages c (mapped maps s).stages =
        ((s.step (mapThrough maps c)).1, (mapped maps (s.step (mapThrough maps c)).2).stages) := by
    induction maps generalizing c with
    | nil =>
      show stepStages c [.collapsing s] = _
      rw [stepStages, Stage.step]
      rcases hstep : s.step c with ⟨_ | d, s'⟩ <;> simp [mapThrough, mapped, hstep, stepStages]
    | cons f maps ih =>
      show stepStages c (.mapping (fun c => some (f c)) :: (mapped maps s).stages) = _
      rw [stepStages, Stage.step]
      dsimp only
      rw [ih (f c)]
      rfl
  rw [step, stages]

theorem readSites_mapped (places : List Site) :
    ((mapped maps s).readSites places).1.map Mapped.char =
      (s.feed ((places.map Site.char).map (mapThrough maps))).1 := by
  induction places generalizing s with
  | nil => rfl
  | cons place places ih =>
    rw [readSites, step_mapped, List.map_cons, List.map_cons, Collapse.feed]
    rcases hstep : s.step (mapThrough maps place.char) with ⟨_ | d, s'⟩
    · exact ih s'
    · exact congrArg (d :: ·) (ih s')

end Run

theorem Thresholds.mem_of_mem_collapse {t : Thresholds} {text : List Char} {c : Char}
    (h : c ∈ t.collapse text) : c ∈ text := by
  obtain ⟨run, hrun, hc⟩ := List.mem_flatMap.mp h
  rw [← List.flatten_splitBy (· == ·) text]
  exact List.mem_flatten.mpr ⟨run, hrun, List.mem_of_mem_take hc⟩

namespace Pipeline

variable {maps : List (Char → Char)} {t : Thresholds}

theorem start_mapped (maps : List (Char → Char)) (t : Thresholds) :
    (mapped maps t).start = .mapped maps (.start t) := by
  rw [start, mapped, Run.mapped, List.map_append, List.map_map]
  rfl

/-- Each character is mapped, and what comes of them is collapsed. -/
theorem chars_mapped (maps : List (Char → Char)) (t : Thresholds) (text : List Char) :
    (mapped maps t).chars text = t.collapse (text.map (mapThrough maps)) := by
  rw [chars, apply_eq, start_mapped, Run.readSites_mapped, map_char_sites, Collapse.feed_start]

/-- Where the maps settle each character and each threshold admits one, a text that comes out has
only settled characters, and its runs are as short as they get. -/
theorem chars_mapped_chars (settled : ∀ c, IsSettled maps (mapThrough maps c))
    (admitting : ∀ c, 1 ≤ t.limit c) (text : List Char) :
    (mapped maps t).chars ((mapped maps t).chars text) = (mapped maps t).chars text := by
  have hmap : ((mapped maps t).chars text).map (mapThrough maps) = (mapped maps t).chars text := by
    refine (List.map_congr_left fun c hc => ?_).trans (List.map_id _)
    rw [chars_mapped] at hc
    obtain ⟨d, -, rfl⟩ := List.mem_map.mp (t.mem_of_mem_collapse hc)
    exact mapThrough_of_settled (settled d)
  rw [chars_mapped maps t (chars _ _), hmap, chars_mapped]
  exact (t.collapse_collapse _ fun c _ => admitting c).1

end Pipeline

/-! Substitutions and look-alikes -/

namespace Substitution

/-- What replaces a character stands in an entry that names this character. -/
theorem exists_entry {s : Substitution} {c d : Char} (h : s.target? c = some d) :
    ∃ e ∈ s, e.1 = d ∧ c ∈ e.2 := by
  induction s using List.reverseRecOn with
  | nil => exact nomatch h
  | append_singleton s e ih =>
    rw [target?, List.foldl_append, List.foldl_cons, List.foldl_nil] at h
    split_ifs at h with hc
    · exact ⟨e, by simp, Option.some.inj h, by simpa using hc⟩
    · obtain ⟨e', he', hfound⟩ := ih h
      exact ⟨e', List.mem_append_left _ he', hfound⟩

end Substitution

/-- Signs stand for lowercase letters, and no lowercase letter is one of them. -/
theorem isLower_of_leetSpeak {c d : Char} (h : leetSpeak.target? c = some d) :
    d.isLower ∧ ¬c.isLower := by
  have table : leetSpeak.all fun e => e.1.isLower && e.2.all (!·.isLower) := by decide
  obtain ⟨e, he, rfl, hc⟩ := Substitution.exists_entry h
  obtain ⟨hlower, hsigns⟩ := Bool.and_eq_true_iff.mp (List.all_eq_true.mp table e he)
  exact ⟨hlower, by simpa using List.all_eq_true.mp hsigns c hc⟩

theorem toNat_lt_of_isAlphanum {c : Char} (h : c.isAlphanum) : c.toNat < 128 := by
  unfold Char.isAlphanum Char.isAlpha Char.isUpper Char.isLower Char.isDigit at h
  simp [UInt32.le_iff_toNat_le] at h
  omega

/-- A folded character is an ASCII character, or it is what it was. -/
theorem foldLookAlike_cases (first? : Char → Option Char) (c : Char) :
    (foldLookAlike first? c).toNat < 128 ∨ foldLookAlike first? c = c := by
  have table : ∀ e ∈ homoglyphs, e.1.toNat < 128 := by decide
  unfold foldLookAlike
  split_ifs with hascii
  · exact .inr rfl
  · cases hglyph : homoglyphs.target? c with
    | some d =>
      obtain ⟨e, he, rfl, -⟩ := Substitution.exists_entry hglyph
      exact .inl (table e he)
    | none =>
      cases first? c with
      | none => exact .inr rfl
      | some d =>
        dsimp only
        split_ifs with hd
        · exact .inl (toNat_lt_of_isAlphanum hd)
        · exact .inr rfl

theorem foldLookAlike_foldLookAlike (first? : Char → Option Char) (c : Char) :
    foldLookAlike first? (foldLookAlike first? c) = foldLookAlike first? c := by
  rcases foldLookAlike_cases first? c with hascii | hsame
  · exact if_pos hascii
  · rw [hsame, hsame]

/-! Lowering -/

theorem toLower_of_not_isUpper {c : Char} (h : ¬c.isUpper) : c.toLower = c := by
  unfold Char.toLower
  refine dif_neg ?_
  unfold Char.isUpper at h
  simpa using h

theorem toLower_of_isLower {c : Char} (h : c.isLower) : c.toLower = c := by
  refine toLower_of_not_isUpper ?_
  unfold Char.isLower at h
  unfold Char.isUpper
  simp only [Bool.and_eq_true, decide_eq_true_eq] at h ⊢
  grind

theorem isLower_toLower {c : Char} (h : c.isUpper) : c.toLower.isLower := by
  unfold Char.isUpper at h
  rw [decide_eq_true_eq] at h
  unfold Char.toLower Char.isLower
  rw [dif_pos h, Bool.and_eq_true, decide_eq_true_eq, decide_eq_true_eq]
  grind

/-- Lowering leaves nothing to lower. -/
theorem toLower_toLower (c : Char) : c.toLower.toLower = c.toLower := by
  by_cases h : c.isUpper
  · exact toLower_of_isLower (isLower_toLower h)
  · rw [toLower_of_not_isUpper h, toLower_of_not_isUpper h]

namespace Pipeline

/-- The maps of the pipeline for searched English text. -/
def englishMaps (first? : Char → Option Char) : List (Char → Char) :=
  [foldLookAlike first?, leetSpeak.apply, Char.toLower]

theorem settled_of_isLower (first? : Char → Option Char) {c : Char} (h : c.isLower) :
    IsSettled (englishMaps first?) c := by
  have halnum : c.isAlphanum := by
    unfold Char.isAlphanum Char.isAlpha
    simp [h]
  have hfold : foldLookAlike first? c = c := if_pos (toNat_lt_of_isAlphanum halnum)
  have hleet : leetSpeak.apply c = c := by
    rw [Substitution.apply]
    cases htarget : leetSpeak.target? c with
    | none => rfl
    | some d => exact absurd h (isLower_of_leetSpeak htarget).2
  simp [IsSettled, englishMaps, hfold, hleet, toLower_of_isLower h]

/-- A character ends as a lowercase letter, or none of the maps has anything to do. -/
theorem settled_englishMaps (first? : Char → Option Char) (c : Char) :
    IsSettled (englishMaps first?) (mapThrough (englishMaps first?) c) := by
  have hfold := foldLookAlike_foldLookAlike first? c
  have hthrough : mapThrough (englishMaps first?) c =
      (leetSpeak.apply (foldLookAlike first? c)).toLower := rfl
  rw [hthrough]
  generalize foldLookAlike first? c = d at hfold ⊢
  cases htarget : leetSpeak.target? d with
  | some e =>
    have he : e.isLower := (isLower_of_leetSpeak htarget).1
    rw [Substitution.apply, htarget, Option.getD_some, toLower_of_isLower he]
    exact settled_of_isLower first? he
  | none =>
    have hleet : leetSpeak.apply d = d := by rw [Substitution.apply, htarget, Option.getD_none]
    rw [hleet]
    by_cases hupper : d.isUpper
    · exact settled_of_isLower first? (isLower_toLower hupper)
    · have hlower : d.toLower = d := toLower_of_not_isUpper hupper
      rw [hlower]
      simp [IsSettled, englishMaps, hfold, hleet, hlower]

theorem one_le_limit_englishDoubles (c : Char) : 1 ≤ englishDoubles.limit c := by
  simp only [Thresholds.limit, englishDoubles, List.foldl_cons, List.foldl_nil]
  split_ifs <;> omega

theorem one_le_limit_singleSpaces (c : Char) : 1 ≤ singleSpaces.limit c := by
  rw [limit_singleSpaces, Collapse.largestCount]
  split_ifs <;> omega

/-- What the pipeline for searched English text makes of a text, this pipeline leaves as it is,
whatever characters decompose to; and so does the pipeline for whitelisted phrases with what it has
made. -/
theorem english_stable (first? : Char → Option Char) (text : List Char) :
    (englishBlacklistWith first?).chars ((englishBlacklistWith first?).chars text) =
      (englishBlacklistWith first?).chars text ∧
    englishWhitelist.chars (englishWhitelist.chars text) = englishWhitelist.chars text := by
  have hlower (c : Char) : IsSettled [Char.toLower] (mapThrough [Char.toLower] c) :=
    List.forall_mem_singleton.mpr (toLower_toLower c)
  exact ⟨chars_mapped_chars (settled_englishMaps first?) one_le_limit_englishDoubles text,
    chars_mapped_chars hlower one_le_limit_singleSpaces text⟩

/-- A look-alike of a sign is no sign, and a digit that a character is folded to is one. -/
example : englishBlacklist.chars "Ｂ00kk＠$$$ ½".toList = "book＠ss i".toList := by decide

end Pipeline

end TermScan
