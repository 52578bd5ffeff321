import Mathlib.Data.List.Forall2
import TermScan.Proofs.Transform.Runs

/-!
# Pipelines in sequence

The transformers of two pipelines, put in one row, work on a character at a time: the second ones
see it only if the first ones keep it. What they keep of a text is what the second pipeline keeps of
the whole text that the first one makes, and each character comes from where the first one found it.
-/
namespace TermScan

/-- A run whose transformers stand behind those of another one. -/
def Run.andThen (r r' : Run) : Run := ⟨r.stages ++ r'.stages⟩

namespace Pipeline

/-- The transformers of a pipeline, and behind them those of another one. -/
def andThen (p q : Pipeline) : Pipeline := ⟨p.transformers ++ q.transformers⟩

theorem start_andThen (p q : Pipeline) : (p.andThen q).start = p.start.andThen q.start :=
  congrArg Run.mk (List.map_append ..)

end Pipeline

/-! One character -/

namespace Run

theorem stepStages_append (c : Char) (first second : List Stage) :
    stepStages c (first ++ second) =
      match stepStages c first with
      | (none, first) => (none, first ++ second)
      | (some d, first) =>
        ((stepStages d second).1, first ++ (stepStages d second).2) := by
  induction first generalizing c with
  | nil => rfl
  | cons s first ih =>
    rw [List.cons_append, stepStages, stepStages]
    rcases s.step c with ⟨_ | d, s'⟩
    · rfl
    · dsimp only
      rw [ih d]
      rcases stepStages d first with ⟨_ | e, first'⟩ <;> rfl

/-- What the first transformers drop the second ones do not see. -/
theorem step_andThen (r r' : Run) (c : Char) :
    (r.andThen r').step c =
      match r.step c with
      | (none, r) => (none, r.andThen r')
      | (some d, r) => ((r'.step d).1, r.andThen (r'.step d).2) := by
  rw [step, andThen, stepStages_append, step]
  rcases stepStages c r.stages with ⟨_ | d, first⟩ <;> rfl

/-! A whole text -/

/-- A character that two pipelines in a row keep is the one that the second pipeline keeps of the
text that the first one has made, where each character made stands next to its site in this text. -/
def Carries (made : List (Mapped × Site)) (whole second : Mapped) : Prop :=
  whole.char = second.char ∧ ∃ m ∈ made, m.1.site = whole.site ∧ m.2 = second.site

theorem Carries.cons {made : List (Mapped × Site)} {whole second : Mapped}
    (h : Carries made whole second) (m : Mapped × Site) : Carries (m :: made) whole second := by
  obtain ⟨hchar, m', hm', hsites⟩ := h
  exact ⟨hchar, m', List.mem_cons_of_mem m hm', hsites⟩

theorem forall₂_readSites_andThen (r r' : Run) {places middle : List Site}
    (h : (r.readSites places).1.map Mapped.char = middle.map Site.char) :
    List.Forall₂ (Carries ((r.readSites places).1.zip middle))
      ((r.andThen r').readSites places).1 (r'.readSites middle).1 := by
  induction places generalizing r r' middle with
  | nil =>
    obtain rfl := List.map_eq_nil_iff.mp h.symm
    exact .nil
  | cons s places ih =>
    rw [readSites] at h
    rw [readSites, readSites, step_andThen]
    rcases hfirst : r.step s.char with ⟨_ | d, r₁⟩ <;> rw [hfirst] at h
    · exact ih r₁ r' h
    · obtain ⟨site, middle, rfl, hd, hmiddle⟩ := List.map_eq_cons_iff.mp h.symm
      have hrest := ih r₁ (r'.step d).2 hmiddle.symm
      dsimp only
      rw [List.zip_cons_cons, readSites, hd]
      rcases hstep : r'.step d with ⟨_ | e, r₂⟩ <;> rw [hstep] at hrest
      · exact hrest.imp fun _ _ h => h.cons _
      · exact .cons ⟨rfl, _, List.mem_cons_self, rfl, rfl⟩ (hrest.imp fun _ _ h => h.cons _)

end Run

/-! Indices -/

/-- The index of the character of a text that fills a span. -/
def indexOfSpan? (text : List Char) (span : Span) : Option Nat :=
  (sites text).findIdx? fun s => s.span == span

theorem indexOfSpan?_eq_some {text : List Char} {i : Nat} {s : Site}
    (h : (sites text)[i]? = some s) : indexOfSpan? text s.span = some i := by
  obtain ⟨hi, rfl⟩ := List.getElem?_eq_some_iff.mp h
  refine List.findIdx?_eq_some_iff_getElem.mpr ⟨hi, beq_self_eq_true _, fun j hj => ?_⟩
  have apart : (sites text)[j].span.last < (sites text)[i].span.first :=
    List.pairwise_iff_getElem.mp (pairwise_sitesFrom 0 none text).1 j i (hj.trans hi) hi hj
  have hspan := site_first_le_last (List.getElem_mem (hj.trans hi))
  rw [beq_iff_eq]
  intro heq
  rw [← heq] at apart
  omega

/-- Where the character that fills a span of a text that has been made stood before. -/
def origin? (made : List Mapped) (span : Span) : Option Site :=
  (indexOfSpan? (made.map Mapped.char) span).bind fun i => made[i]?.map Mapped.site

theorem Run.Carries.origin?_eq {made : List Mapped} {whole second : Mapped}
    (h : Carries (made.zip (sites (made.map Mapped.char))) whole second) :
    origin? made second.site.span = some whole.site := by
  obtain ⟨-, m, hm, hsite, hplace⟩ := h
  obtain ⟨i, hi⟩ := List.mem_iff_getElem?.mp hm
  obtain ⟨hmade, hmiddle⟩ := List.getElem?_zip_eq_some.mp hi
  rw [hplace] at hmiddle
  rw [origin?, indexOfSpan?_eq_some hmiddle, Option.bind_some, hmade, Option.map_some, hsite]

/-- Two pipelines in a row keep of a text what the second one keeps of the text that the first one
makes of it, and each character has the place of the one that it was made of. In every result the
spans increase and lie apart, and each of them is that of one character of the text. -/
theorem composition_exact (p q : Pipeline) (text : List Char) :
    let first := p.apply text
    let second := q.apply (first.map Mapped.char)
    let whole := (p.andThen q).apply text
    whole.map Mapped.char = second.map Mapped.char ∧
    (∀ k : Nat, whole[k]?.map Mapped.site =
      second[k]?.bind fun m => origin? first m.site.span) ∧
    first.Pairwise (fun m m' =>
      m.site.span.first < m'.site.span.first ∧ m.site.span.last < m'.site.span.first) ∧
    (∀ m ∈ first, ∃ before c after, text = before ++ c :: after ∧
      m.site.span = .ofChar (byteLength before) c) ∧
    (first.map fun m => m.site.span).length = (first.map Mapped.char).length := by
  intro first second whole
  have carries : List.Forall₂ (Run.Carries (first.zip (sites (first.map Mapped.char))))
      whole second := by
    have hmade : (p.start.readSites (sites text)).1 = first := (p.apply_eq text).symm
    have hread := Run.forall₂_readSites_andThen p.start q.start
      (hmade ▸ (map_char_sites (first.map Mapped.char)).symm)
    rwa [hmade, ← Pipeline.start_andThen, ← Pipeline.apply_eq, ← Pipeline.apply_eq] at hread
  refine ⟨?_, fun k => ?_, ?_, fun m hm => ?_, by simp⟩
  · rw [← List.forall₂_eq_eq_eq, List.forall₂_map_left_iff, List.forall₂_map_right_iff]
    exact carries.imp fun w m h => h.1
  · have hsites : whole.map (fun w => some w.site) =
        second.map fun m => origin? first m.site.span := by
      rw [← List.forall₂_eq_eq_eq, List.forall₂_map_left_iff, List.forall₂_map_right_iff]
      exact carries.imp fun w m h => h.origin?_eq.symm
    have hat := congrArg (·[k]?) hsites
    simp only [List.getElem?_map] at hat
    cases hwhole : whole[k]? <;> cases hsecond : second[k]? <;> simp_all
  · refine (p.pairwise_apply text).imp_of_mem fun {m m'} hm hm' h => ⟨?_, h⟩
    exact (site_first_le_last (Pipeline.site_mem_of_mem_apply hm)).trans_lt h
  · obtain ⟨before, c, after, htext, hsite⟩ :=
      exists_siteBetween (Pipeline.site_mem_of_mem_apply hm)
    exact ⟨before, c, after, htext, by rw [hsite]; rfl⟩

/-- A collapse behind a transformer that drops a character does not see what was dropped. -/
example :
    let p : Pipeline := ⟨[.mapping fun c => if c = '-' then none else some c]⟩
    let q : Pipeline := ⟨[.collapsing ⟨1, []⟩]⟩
    ((p.andThen q).apply "a-ab".toList).map (fun m => (m.char, m.site.span.first)) =
      [('a', 0), ('b', 3)] := by
  decide

end TermScan
