import TermScan.Proofs.Trie.Build
import TermScan.Trie.Nearest

/-!
# Walks meet marked suffixes

When the failure links stand, one more pass links every node to the nearest marked node on its
failure chain, for the failure of a node comes before it in the order. A walk along such links, or
along output links, meets the marked nodes among the suffixes of a string, each once and with the
longest first.
-/
namespace TermScan.Trie

variable {t : Trie} {marked : Nat → Bool}

/-! Linking -/

section Linking

variable {failure : Array Nat}

/-- A node is linked from its failure. -/
theorem linkNearest_eq {links : Array (Option Nat)} {w : List Char} {x : Nat} (hne : w ≠ [])
    (hfailure : failure[x]? = some (t.state w.tail))
    (hnearest : EntryAt (t.IsNearest marked) links (t.state w.tail)) :
    linkNearest failure marked links x =
      some (links.setIfInBounds x (t.markedBelow marked w).head?) := by
  obtain ⟨nearest, hentry, hnearest⟩ := hnearest
  rw [linkNearest, hfailure, head?_markedBelow t marked hne,
    ← hnearest _ (find?_longest t w.tail)]
  simp only [bind, Option.bind_some, hentry]
  rfl

/-- All nodes but the root, by depth. -/
structure ByDepth (t : Trie) (order : List Nat) : Prop where
  mem_iff : ∀ x, x ∈ order ↔ x < t.size ∧ x ≠ root
  sorted : order.Pairwise fun x y => t.depth x ≤ t.depth y

/-- The failure of a node comes before the node. -/
theorem ByDepth.failure_mem {done rest : List Nat} {x : Nat} (order : t.ByDepth (done ++ x :: rest))
    (sound : t.Sound) {w : List Char} (hne : w ≠ []) (hw : t.find? w = some x) :
    t.state w.tail = root ∨ t.state w.tail ∈ done := by
  have hdepth : t.depth (t.state w.tail) < t.depth x := by
    have hle := length_longest_tail_le t w
    have hpos := List.length_pos_iff.mpr hne
    rw [(sound.find?_spec (find?_longest t w.tail)).2, (sound.find?_spec hw).2]
    omega
  -- the nodes from `x` on are at least as deep as `x`
  by_contra hnot
  rw [not_or] at hnot
  have hcome := (order.mem_iff _).mpr ⟨state_lt sound w.tail, hnot.1⟩
  rcases List.mem_cons.mp ((List.mem_append.mp hcome).resolve_left hnot.2) with h | h
  · rw [h] at hdepth
    exact Nat.lt_irrefl _ hdepth
  · have hle := List.rel_of_pairwise_cons (List.pairwise_append.mp order.sorted).2.1 h
    omega

/-- Nodes are linked one after the other, from their failures, which have been linked before. -/
theorem foldlM_linkNearest (sound : t.Sound) (linked : ∀ length, t.LinkedTo failure length)
    (rest done : List Nat) (order : t.ByDepth (done ++ rest)) (links : Array (Option Nat))
    (hsize : links.size = t.size)
    (hentry : ∀ x, x = root ∨ x ∈ done → EntryAt (t.IsNearest marked) links x) :
    ∃ grown, rest.foldlM (linkNearest failure marked) links = some grown ∧
      Grown (t.IsNearest marked) links grown rest := by
  induction rest generalizing done links with
  | nil => exact ⟨links, rfl, .refl links⟩
  | cons x rest ih =>
    obtain ⟨hx, hroot⟩ := (order.mem_iff x).mp (by simp)
    obtain ⟨w, hw⟩ := sound.exists_find? hx
    have hne : w ≠ [] := ne_nil_of_find? hw hroot
    have hnearest : t.IsNearest marked x (t.markedBelow marked w).head? := fun u hu => by
      rw [sound.find?_injective hu hw]
    have hmore : (done ++ [x]) ++ rest = done ++ x :: rest := by simp
    obtain ⟨grown, hfold, hgrown⟩ := ih (done ++ [x]) (hmore ▸ order)
      (links.setIfInBounds x (t.markedBelow marked w).head?)
      (by rw [Array.size_setIfInBounds, hsize]) fun y hy => by
        rw [List.mem_append, List.mem_singleton, ← or_assoc] at hy
        rcases hy with hy | rfl
        · exact (hentry y hy).set hnearest
        · exact entryAt_set (hsize ▸ hx) hnearest
    refine ⟨grown, ?_, .cons (hsize ▸ hx) hnearest hgrown⟩
    rw [List.foldlM_cons, linkNearest_eq hne (linked _ w x hw le_rfl)
      (hentry _ (order.failure_mem sound hne hw))]
    exact hfold

/-- The nodes of a finished pass are linked to their longest marked proper suffixes. -/
theorem nearestLinks?_spec (sound : t.Sound) {accept : Nat → Bool} {p : LinkPass}
    (standing : p.Standing t accept) (hqueue : p.queue = []) (marked : Nat → Bool) :
    ∃ links, t.nearestLinks? p marked = some links ∧ ∀ w x, t.find? w = some x →
      links[x]? = some (t.markedBelow marked w).head? := by
  have hsorted := standing.sorted
  rw [hqueue, List.append_nil] at hsorted
  have order : t.ByDepth p.order := ⟨fun x => standing.mem_order_iff sound hqueue, hsorted⟩
  have hroot : EntryAt (t.IsNearest marked) (.replicate t.size none) root :=
    ⟨none, by simp [sound.size_pos, root], isNearest_root sound marked⟩
  obtain ⟨links, hfold, hgrown⟩ := foldlM_linkNearest sound
    (fun _ w x hw _ => (standing.links_eq sound hqueue hw).1) p.order [] order
    (.replicate t.size none) Array.size_replicate fun x hx => by
      obtain rfl : x = root := by simpa using hx
      exact hroot
  refine ⟨links, hfold, fun w x hw => ?_⟩
  have hentry : EntryAt (t.IsNearest marked) links x := by
    by_cases h : x = root
    · exact hgrown.entry x (.inl (h ▸ hroot))
    · exact hgrown.entry x (.inr ((order.mem_iff x).mpr ⟨(sound.find?_spec hw).1, h⟩))
  obtain ⟨nearest, hlink, hnearest⟩ := hentry
  rw [hlink, hnearest w hw]

end Linking

/-! Walking -/

/-- Along links to the longest marked proper suffix a walk meets all of them. The marks may depend
on the string, if strings where walks meet agree on what comes. -/
theorem meetWithin_eq {links : Array (Option Nat)} (marks : List Char → Nat → Bool)
    (linked : ∀ w x, t.find? w = some x → links[x]? = some (t.markedBelow (marks w) w).head?)
    (agree : ∀ s w, s <:+ w → t.markedBelow (marks s) s = t.markedBelow (marks w) s)
    (nodes : Nat) {w : List Char} (hnodes : w.length ≤ nodes) :
    meetWithin links nodes (t.markedBelow (marks w) w).head? =
      some (t.markedBelow (marks w) w) := by
  induction nodes generalizing w with
  | zero =>
    rw [List.eq_nil_of_length_eq_zero (Nat.le_zero.mp hnodes)]
    rfl
  | succ nodes ih =>
    cases h : (t.markedBelow (marks w) w).head? with
    | none => rw [List.head?_eq_none_iff.mp h, meetWithin]
    | some y =>
      obtain ⟨s, hs, hsuffix, hlt, heq⟩ := markedBelow_of_head h
      rw [meetWithin, linked s y hs, heq, ← agree s w hsuffix]
      simp only [bind, Option.bind_some, ih (w := s) (by omega)]
      rfl

/-- The nodes are the marked ones of some strings, each once and those of longer strings first. -/
structure Lists (t : Trie) (marked : Nat → Bool) (among : List Char → Prop) (met : List Nat) :
    Prop where
  mem_iff : ∀ y, y ∈ met ↔ marked y ∧ ∃ s, t.find? s = some y ∧ among s
  nodup : met.Nodup
  decreasing : met.Pairwise fun y z => t.depth z < t.depth y

theorem Lists.lt_size {marked : Nat → Bool} {among : List Char → Prop} {met : List Nat}
    (lists : t.Lists marked among met) (sound : t.Sound) : ∀ y ∈ met, y < t.size := by
  intro y hy
  obtain ⟨-, s, hs, -⟩ := (lists.mem_iff y).mp hy
  exact (sound.find?_spec hs).1

theorem lists_markedBelow (sound : t.Sound) (marked : Nat → Bool) (w : List Char) :
    t.Lists marked (fun s => s <:+ w ∧ s ≠ w) (t.markedBelow marked w) where
  mem_iff _ := mem_markedBelow
  nodup := (pairwise_markedBelow sound w).imp fun h heq => by simp [heq] at h
  decreasing := pairwise_markedBelow sound w

/-- A node in front of what is marked below its string. -/
theorem lists_suffixes (sound : t.Sound) (marked : Nat → Bool) {w : List Char} {x : Nat}
    (hw : t.find? w = some x) :
    t.Lists marked (· <:+ w) (if marked x then x :: t.markedBelow marked w
      else t.markedBelow marked w) := by
  obtain ⟨hmem, hnodup, hdecreasing⟩ := lists_markedBelow sound marked w
  have hshorter (y : Nat) (hy : y ∈ t.markedBelow marked w) : t.depth y < t.depth x := by
    obtain ⟨-, s, hs, hsuffix, hne⟩ := (hmem y).mp hy
    rw [(sound.find?_spec hs).2, (sound.find?_spec hw).2]
    exact hsuffix.length_le.lt_of_ne fun hlength => hne (hsuffix.eq_of_length hlength)
  have hsplit (y : Nat) : (marked y ∧ ∃ s, t.find? s = some y ∧ s <:+ w) ↔
      marked x ∧ y = x ∨ y ∈ t.markedBelow marked w := by
    rw [hmem]
    constructor
    · intro ⟨hy, s, hs, hsuffix⟩
      by_cases hne : s = w
      · subst hne
        obtain rfl := Option.some.inj (hs.symm.trans hw)
        exact .inl ⟨hy, rfl⟩
      · exact .inr ⟨hy, s, hs, hsuffix, hne⟩
    · intro h
      rcases h with ⟨hx, rfl⟩ | ⟨hy, s, hs, hsuffix, -⟩
      · exact ⟨hx, w, hw, List.suffix_rfl⟩
      · exact ⟨hy, s, hs, hsuffix⟩
  by_cases hx : marked x
  · rw [if_pos hx]
    refine ⟨fun y => by rw [hsplit, List.mem_cons]; simp [hx], ?_, ?_⟩
    · exact List.nodup_cons.mpr ⟨fun hmem => Nat.lt_irrefl _ (hshorter x hmem), hnodup⟩
    · exact List.pairwise_cons.mpr ⟨hshorter, hdecreasing⟩
  · rw [if_neg hx]
    exact ⟨fun y => by rw [hsplit]; simp [hx], hnodup, hdecreasing⟩

/-- The accepting suffixes of a node are met, but for the root where its output is not linked. -/
theorem acceptingSuffixes_eq (sound : t.Sound) {accept : Nat → Bool} {p : LinkPass}
    (standing : p.Standing t accept) (hqueue : p.queue = []) {w : List Char} {x : Nat}
    (hw : t.find? w = some x) :
    t.acceptingSuffixes accept p.output x = some (if t.chained accept w x then
      x :: t.markedBelow (t.chained accept w) w else t.markedBelow (t.chained accept w) w) := by
  obtain ⟨hx, hdepth⟩ := sound.find?_spec hw
  have hlength : w.length ≤ t.size := by
    have := sound.depth_lt hx
    omega
  rw [acceptingSuffixes, (standing.links_eq sound hqueue hw).2, chained_self sound hw]
  simp only [bind, Option.bind_some,
    meetWithin_eq (t.chained accept) (fun w x hw => (standing.links_eq sound hqueue hw).2)
      (fun s w => markedBelow_chained) t.size hlength]
  rfl

end TermScan.Trie
