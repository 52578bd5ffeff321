import TermScan.Proofs.Places

/-!
# Runs of a pipeline

A run can be cut anywhere: it reads what is left from the state that it has reached. Right before a
character that it keeps and right behind another one, a cut shows the part of the text that lies
between them. A run of transformers without memory never changes, so it treats each part of a text
as it treats this part on its own.
-/
namespace TermScan

namespace Pipeline

/-- A fresh run has nothing to forget. -/
theorem reset_start (p : Pipeline) : p.start.reset = p.start := by
  have stage (t : Transformer) : (Stage.ofTransformer t).reset = .ofTransformer t := by
    cases t <;> rfl
  simp [start, Run.reset, stage]

theorem apply_eq (p : Pipeline) (text : List Char) :
    p.apply text = (p.start.readSites (sites text)).1 := by
  rw [apply, Run.apply, reset_start]

end Pipeline

/-! Cutting a run -/

namespace Run

theorem readSites_append (r : Run) (xs ys : List Site) :
    (r.readSites (xs ++ ys)).1 =
      (r.readSites xs).1 ++ ((r.readSites xs).2.readSites ys).1 := by
  induction xs generalizing r with
  | nil => rfl
  | cons s xs ih =>
    rw [List.cons_append, readSites, readSites]
    rcases r.step s.char with ⟨_ | c, r'⟩
    · exact ih r'
    · exact congrArg (_ :: ·) (ih r')

theorem site_mem_of_mem_readSites {r : Run} {places : List Site} {m : Mapped}
    (h : m ∈ (r.readSites places).1) : m.site ∈ places :=
  (r.sites_readSites places).subset (List.mem_map.mpr ⟨m, h, rfl⟩)

/-- A run can be cut at each character that it keeps. -/
theorem exists_cut {r : Run} {places : List Site} {i : Nat} {m : Mapped}
    (h : (r.readSites places).1[i]? = some m) :
    ∃ xs ys, places = xs ++ m.site :: ys ∧ (r.readSites xs).1.length = i ∧
      (r.readSites (xs ++ [m.site])).1.length = i + 1 := by
  induction places generalizing r i with
  | nil => simp [readSites] at h
  | cons s places ih =>
    rw [readSites] at h
    rcases hstep : r.step s.char with ⟨_ | c, r'⟩ <;> rw [hstep] at h
    · obtain ⟨xs, ys, rfl, hbefore, hafter⟩ := ih h
      refine ⟨s :: xs, ys, rfl, ?_, ?_⟩
      · rwa [readSites, hstep]
      · rwa [List.cons_append, readSites, hstep]
    · cases i with
      | zero =>
        obtain rfl := Option.some.inj h
        refine ⟨[], places, rfl, rfl, ?_⟩
        rw [List.nil_append, readSites, hstep]
        rfl
      | succ i =>
        obtain ⟨xs, ys, rfl, hbefore, hafter⟩ := ih h
        refine ⟨s :: xs, ys, rfl, ?_, ?_⟩
        · rw [readSites, hstep]
          exact congrArg Nat.succ hbefore
        · rw [List.cons_append, readSites, hstep]
          exact congrArg Nat.succ hafter

/-- From one kept character to another a run reads a part of the places. -/
theorem exists_part {r : Run} {places : List Site} {i j : Nat} {first last : Mapped} (hij : i ≤ j)
    (hfirst : (r.readSites places).1[i]? = some first)
    (hlast : (r.readSites places).1[j]? = some last) :
    ∃ xs part ys, places = xs ++ part ++ ys ∧ part.head? = some first.site ∧
      part.getLast? = some last.site ∧
      ((r.readSites xs).2.readSites part).1 = ((r.readSites places).1.take (j + 1)).drop i := by
  obtain ⟨xs, ys, hxs, hbefore, -⟩ := exists_cut hfirst
  obtain ⟨xs', ys', hxs', -, hafter⟩ := exists_cut hlast
  have hplaces : places = (xs' ++ [last.site]) ++ ys' := by simpa using hxs'
  obtain ⟨part, hpart⟩ : xs <+: xs' ++ [last.site] := by
    refine (List.prefix_or_prefix_of_prefix (hxs ▸ List.prefix_append _ _)
      (hplaces ▸ List.prefix_append _ _)).resolve_right ?_
    rintro ⟨zs, rfl⟩
    rw [readSites_append, List.length_append] at hbefore
    omega
  have hnonempty : part ≠ [] := by
    rintro rfl
    rw [List.append_nil] at hpart
    rw [← hpart] at hafter
    omega
  rw [← hpart] at hplaces hafter
  refine ⟨xs, part, ys', hplaces, ?_, ?_, ?_⟩
  · have hrest : part ++ ys' = first.site :: ys :=
      List.append_cancel_left ((List.append_assoc _ _ _).symm.trans (hplaces.symm.trans hxs))
    rw [← List.head?_append_of_ne_nil part hnonempty, hrest]
    rfl
  · rw [← List.getLast?_append_of_ne_nil xs hnonempty, hpart]
    simp
  · have hkept : (r.readSites places).1.take (j + 1) = (r.readSites (xs ++ part)).1 := by
      rw [hplaces, readSites_append r (xs ++ part), ← hafter, List.take_left]
    rw [hkept, readSites_append, ← hbefore, List.drop_left]

theorem length_readSites_le (r : Run) (places : List Site) :
    (r.readSites places).1.length ≤ places.length := by
  simpa using (r.sites_readSites places).length_le

end Run

/-! Transformers without memory -/

/-- The transformer treats each character on its own. -/
def Transformer.isStateless : Transformer → Bool
  | .mapping _ => true
  | .collapsing _ => false

/-- No transformer remembers what it has read. -/
def Pipeline.IsStateless (p : Pipeline) : Prop := ∀ t ∈ p.transformers, t.isStateless

namespace Run

/-- Reading does not change the run. -/
def IsFixed (r : Run) : Prop := ∀ c, (r.step c).2 = r

theorem isFixed_start {p : Pipeline} (stateless : p.IsStateless) : p.start.IsFixed := by
  have stages (c : Char) (ts : List Transformer) (h : ∀ t ∈ ts, t.isStateless) :
      (stepStages c (ts.map Stage.ofTransformer)).2 = ts.map Stage.ofTransformer := by
    induction ts generalizing c with
    | nil => rfl
    | cons t ts ih =>
      obtain ⟨ht, hts⟩ := List.forall_mem_cons.mp h
      cases t with
      | collapsing thresholds => contradiction
      | mapping f =>
        rw [List.map_cons, Stage.ofTransformer, stepStages, Stage.step]
        cases hf : f c with
        | none => rfl
        | some d => exact congrArg (_ :: ·) (ih d hts)
  exact fun c => congrArg Run.mk (stages c p.transformers stateless)

/-- A run that does not change maps each character on its own. -/
theorem IsFixed.readSites_eq {r : Run} (fixed : r.IsFixed) (places : List Site) :
    (r.readSites places).1.map Mapped.char =
        (places.map Site.char).filterMap (fun c => (r.step c).1) ∧
      (r.readSites places).2 = r := by
  induction places with
  | nil => exact ⟨rfl, rfl⟩
  | cons s places ih =>
    have hsame := fixed s.char
    rw [readSites, List.map_cons, List.filterMap_cons]
    rcases hstep : r.step s.char with ⟨_ | c, r'⟩ <;> rw [hstep] at hsame <;> subst hsame
    · exact ih
    · exact ⟨congrArg (c :: ·) ih.1, ih.2⟩

end Run

/-! Parts of a text -/

theorem chars_of_sites_eq {text : List Char} {places : List Site} (h : sites text = places) :
    text = places.map Site.char := by
  rw [← h, map_char_sites]

/-- A site fills the bytes behind those of the sites before it. -/
theorem span_of_sites_eq {text : List Char} {xs ys : List Site} {s : Site}
    (h : sites text = xs ++ s :: ys) :
    s.span = Span.ofChar (byteLength (xs.map Site.char)) s.char := by
  have htake : text.take xs.length = xs.map Site.char := by
    rw [chars_of_sites_eq h, List.map_append, ← List.length_map (f := Site.char), List.take_left]
  have hsite : (sites text)[xs.length]? = some s := by simp [h]
  rw [getElem?_sites, Option.map_eq_some_iff] at hsite
  obtain ⟨c, -, rfl⟩ := hsite
  rw [siteBetween, htake]

/-- A part of the sites of a text holds the characters between two borders. -/
theorem borders_of_sites_eq {text : List Char} {xs part ys : List Site} {first last : Site}
    (h : sites text = xs ++ part ++ ys) (hfirst : part.head? = some first)
    (hlast : part.getLast? = some last) :
    byteLength (xs.map Site.char) = first.span.first ∧
      byteLength (xs.map Site.char ++ part.map Site.char) = last.span.last + 1 := by
  constructor
  · obtain ⟨rest, rfl⟩ := List.head?_eq_some_iff.mp hfirst
    have hfirst : sites text = xs ++ first :: (rest ++ ys) := by simpa using h
    rw [span_of_sites_eq hfirst]
    rfl
  · obtain ⟨init, rfl⟩ := List.getLast?_eq_some_iff.mp hlast
    have hlast : sites text = (xs ++ init) ++ last :: ys := by simpa using h
    have := last.char.utf8Size_pos
    rw [span_of_sites_eq hlast]
    simp only [Span.ofChar, List.map_append, byteLength_append, List.map_cons, List.map_nil,
      byteLength_cons, byteLength_nil]
    omega

/-- The sites of three parts of a text. -/
theorem exists_sites_append (a b c : List Char) :
    ∃ xs ys zs, sites (a ++ b ++ c) = xs ++ ys ++ zs ∧ xs.map Site.char = a ∧
      ys.map Site.char = b ∧ zs.map Site.char = c := by
  have h : (sites (a ++ b ++ c)).map Site.char = a ++ b ++ c := map_char_sites _
  obtain ⟨front, zs, hsites, hfront, hzs⟩ := List.map_eq_append_iff.mp h
  obtain ⟨xs, ys, rfl, hxs, hys⟩ := List.map_eq_append_iff.mp hfront
  exact ⟨xs, ys, zs, hsites, hxs, hys, hzs⟩

/-- The bytes of a site lie within those of the part that it belongs to. -/
theorem span_of_mem_part {text : List Char} {xs part ys : List Site}
    (h : sites text = xs ++ part ++ ys) {s : Site} (hs : s ∈ part) :
    byteLength (xs.map Site.char) ≤ s.span.first ∧
      s.span.last < byteLength ((xs ++ part).map Site.char) := by
  obtain ⟨us, vs, rfl⟩ := List.append_of_mem hs
  have hsites : sites text = (xs ++ us) ++ s :: (vs ++ ys) := by simpa using h
  have hsize := s.char.utf8Size_pos
  rw [span_of_sites_eq hsites]
  simp only [Span.ofChar, List.map_append, List.map_cons, byteLength_append, byteLength_cons]
  omega

/-- What is kept of a text is what is kept of its parts, read one after the other. -/
theorem Pipeline.exists_apply_eq_append (p : Pipeline) {text : List Char}
    {xs part ys : List Site} (h : sites text = xs ++ part ++ ys) :
    ∃ kept, p.apply text = (p.start.readSites xs).1 ++
      ((p.start.readSites xs).2.readSites part).1 ++ kept ∧ ∀ m ∈ kept, m.site ∈ ys := by
  rw [apply_eq, h, Run.readSites_append, Run.readSites_append]
  exact ⟨_, rfl, fun m hm => Run.site_mem_of_mem_readSites hm⟩

end TermScan
