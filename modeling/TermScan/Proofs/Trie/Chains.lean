import TermScan.Proofs.Trie.Suffixes

/-!
# Chains of marked suffixes

Along its nearest links a node meets the marked nodes among the proper suffixes of its string,
each of them once and the longest first.
-/
namespace TermScan.Trie

variable {t : Trie} {marked : Nat → Bool}

/-- The node of a string, if it is marked. -/
def markedAt (t : Trie) (marked : Nat → Bool) (s : List Char) : Option Nat :=
  (t.find? s).filter marked

/-- The marked nodes of the proper suffixes of a string, the longest first. -/
def markedBelow (t : Trie) (marked : Nat → Bool) (w : List Char) : List Nat :=
  w.tails.tail.filterMap (t.markedAt marked)

theorem markedAt_of_none {s : List Char} (h : t.find? s = none) : t.markedAt marked s = none := by
  rw [markedAt, h]; rfl

theorem filterMap_tails (t : Trie) (marked : Nat → Bool) (w : List Char) :
    w.tails.filterMap (t.markedAt marked) =
      (t.markedAt marked w).toList ++ t.markedBelow marked w := by
  rw [tails_eq_cons, List.filterMap_cons]
  cases h : t.markedAt marked w <;> rfl

/-- What is marked below a string is marked at or below its longest proper suffix. -/
theorem markedBelow_eq (t : Trie) (marked : Nat → Bool) {w : List Char} (hne : w ≠ []) :
    t.markedBelow marked w =
      (t.markedAt marked (t.longest w.tail)).toList ++ t.markedBelow marked (t.longest w.tail) := by
  cases w with
  | nil => contradiction
  | cons c w =>
    rw [← filterMap_tails, List.tail_cons,
      ← filterMap_tails_longest fun s hs => markedAt_of_none hs, markedBelow, List.tails_cons,
      List.tail_cons]

/-- The first node marked below a string is at the longest proper suffix, or is the first below
it. -/
theorem head?_markedBelow (t : Trie) (marked : Nat → Bool) {w : List Char} (hne : w ≠ []) :
    (t.markedBelow marked w).head? =
      if marked (t.state w.tail) then some (t.state w.tail)
      else (t.markedBelow marked (t.longest w.tail)).head? := by
  rw [markedBelow_eq t marked hne, markedAt, find?_longest]
  by_cases h : marked (t.state w.tail) <;> simp [h, Option.filter_some]

/-- The first marked suffix has all the others below it. -/
theorem markedBelow_of_head {w : List Char} {y : Nat}
    (h : (t.markedBelow marked w).head? = some y) :
    ∃ s, t.find? s = some y ∧ s <:+ w ∧ s.length < w.length ∧
      t.markedBelow marked w = y :: t.markedBelow marked s := by
  induction w with
  | nil => simp [markedBelow] at h
  | cons c w ih =>
    have below : t.markedBelow marked (c :: w) =
        (t.markedAt marked w).toList ++ t.markedBelow marked w := by
      rw [← filterMap_tails, markedBelow, List.tails_cons, List.tail_cons]
    rw [below] at h ⊢
    cases hm : t.markedAt marked w with
    | some x =>
      rw [hm] at h
      obtain rfl : x = y := by simpa using h
      exact ⟨w, (Option.filter_eq_some_iff.mp hm).1, List.suffix_cons c w, by simp, rfl⟩
    | none =>
      rw [hm] at h
      obtain ⟨s, hs, hsuffix, hlen, heq⟩ := ih h
      exact ⟨s, hs, hsuffix.trans (List.suffix_cons c w), by rw [List.length_cons]; omega, heq⟩

/-- Marked below a string are the marked nodes of its proper suffixes. -/
theorem mem_markedBelow {w : List Char} {y : Nat} :
    y ∈ t.markedBelow marked w ↔ marked y ∧ ∃ s, t.find? s = some y ∧ s <:+ w ∧ s ≠ w := by
  have hproper (s : List Char) : s ∈ w.tails.tail ↔ s <:+ w ∧ s ≠ w := by
    cases w with
    | nil => simp
    | cons c w =>
      rw [List.tails_cons, List.tail_cons, List.mem_tails, ← suffix_tail_iff (by simp),
        List.tail_cons]
  rw [markedBelow, List.mem_filterMap]
  simp only [hproper, markedAt, Option.filter_eq_some_iff]
  tauto

/-- Only the marks of nodes matter. -/
theorem markedBelow_congr {other : Nat → Bool}
    (h : ∀ s x, t.find? s = some x → marked x = other x) (w : List Char) :
    t.markedBelow marked w = t.markedBelow other w := by
  refine List.filterMap_congr fun s _ => ?_
  rw [markedAt, markedAt]
  cases hs : t.find? s with
  | none => rfl
  | some x => rw [Option.filter_some, Option.filter_some, h s x hs]

/-- They come with the longest first. -/
theorem pairwise_markedBelow (sound : t.Sound) (w : List Char) :
    (t.markedBelow marked w).Pairwise fun y z => t.depth z < t.depth y := by
  refine (List.Pairwise.sublist (List.tail_sublist _) (pairwise_tails w)).filterMap _ ?_
  intro r s hlt y hy z hz
  have hr := (sound.find?_spec (Option.filter_eq_some_iff.mp hy).1).2
  have hs := (sound.find?_spec (Option.filter_eq_some_iff.mp hz).1).2
  omega

/-- The nearest link of a node leads to the longest marked proper suffix of its string. -/
def IsNearest (t : Trie) (marked : Nat → Bool) (x : Nat) (link : Option Nat) : Prop :=
  ∀ w, t.find? w = some x → link = (t.markedBelow marked w).head?

theorem isNearest_root (sound : t.Sound) (marked : Nat → Bool) : t.IsNearest marked root none := by
  intro w hw
  rw [sound.find?_injective hw (find?_nil t)]
  rfl

end TermScan.Trie

namespace TermScan.LinkedTrie

open Trie

variable {t : Trie} {marked : Nat → Bool}

theorem extends_nearest (sound : t.Sound) :
    t.Extends (t.IsNearest marked) fun links e =>
      let f := (ofTrie t).failureLink e.target
      if marked f then some f else links[f]?.join := by
  intro links e hedge filled w hw
  have hdepth := (sound.edge _ _ _ hedge).2.2
  have hlen := (sound.find?_spec hw).2
  have hne : w ≠ [] := by
    rintro rfl
    simp at hlen
    omega
  have hfind := find?_longest t w.tail
  dsimp only
  rw [failureLink_ofTrie sound hw, head?_markedBelow t marked hne]
  obtain ⟨hlt, -⟩ := sound.find?_spec hfind
  have hshort := length_longest_tail_le t w
  obtain ⟨link, hlink, hnearest⟩ := filled.2 _ hlt (by rw [(sound.find?_spec hfind).2]; omega)
  rw [hlink, hnearest _ hfind, Option.join_some]

theorem nearestLinks_eq (sound : t.Sound) {w : List Char} {x : Nat} (hw : t.find? w = some x) :
    ((ofTrie t).nearestLinks marked)[x]? = some (t.markedBelow marked w).head? := by
  have hroot : EntryAt (t.IsNearest marked) (Array.replicate t.size none) root :=
    ⟨none, by simp [sound.size_pos, root], isNearest_root sound marked⟩
  obtain ⟨link, hlink, hnearest⟩ := entryAt_foldl_breadthFirst sound (extends_nearest sound)
    (by simp) hroot (sound.find?_spec hw).1
  rw [← hnearest w hw, ← hlink]
  rfl

/-- Along links to the longest marked proper suffix a node meets all of them. The marks may depend
on the string, if strings where walks meet agree on what comes. -/
theorem chain_of_linked (sound : t.Sound) {links : Array (Option Nat)}
    (marks : List Char → Nat → Bool)
    (linked : ∀ w x, t.find? w = some x → links[x]? = some (t.markedBelow (marks w) w).head?)
    (agree : ∀ s w, s <:+ w → t.markedBelow (marks s) s = t.markedBelow (marks w) s)
    {w : List Char} {x : Nat} (hw : t.find? w = some x) :
    (ofTrie t).chain links x = t.markedBelow (marks w) w := by
  have along (fuel : Nat) : ∀ w x, t.find? w = some x → w.length ≤ fuel →
      chainFrom links fuel x = t.markedBelow (marks w) w := by
    induction fuel with
    | zero =>
      intro w x hw hfuel
      rw [List.eq_nil_of_length_eq_zero (Nat.le_zero.mp hfuel)]
      rfl
    | succ fuel ih =>
      intro w x hw hfuel
      rw [chainFrom, linked w x hw, Option.join_some]
      cases h : (t.markedBelow (marks w) w).head? with
      | none => exact (List.head?_eq_none_iff.mp h).symm
      | some y =>
        obtain ⟨s, hs, hsuffix, hlen, heq⟩ := markedBelow_of_head h
        rw [heq, ← agree s w hsuffix]
        exact congrArg _ (ih s y hs (by omega))
  exact along _ w x hw (sound.find?_spec hw).2.ge

/-- Along nearest links a node meets the marked proper suffixes of its string, each once and the
longest first. -/
theorem chain_eq (sound : t.Sound) {w : List Char} {x : Nat} (hw : t.find? w = some x) :
    (ofTrie t).chain ((ofTrie t).nearestLinks marked) x = t.markedBelow marked w :=
  chain_of_linked sound (fun _ => marked) (fun _ _ => nearestLinks_eq sound) (fun _ _ _ => rfl) hw

/-- The rows at a node and at marked suffixes are the rows of all suffixes, the longest first, if
only marked nodes have rows. -/
theorem flatMap_markedBelow {α : Type} {row : Nat → List α}
    (rowless : ∀ y, marked y = false → row y = []) (u : List Char) :
    (t.state u :: t.markedBelow marked (t.longest u)).flatMap row =
      u.tails.flatMap fun s => ((t.find? s).map row).getD [] := by
  have hfind := find?_longest t u
  rw [flatMap_tails_longest fun s hs => by rw [hs]; rfl, tails_eq_cons, List.flatMap_cons,
    List.flatMap_cons, hfind, Option.map_some, Option.getD_some, markedBelow,
    List.filterMap_eq_flatMap_toList, List.flatMap_assoc]
  congr 2
  funext s
  rw [markedAt]
  cases hs : t.find? s with
  | none => rfl
  | some y => cases hmark : marked y <;> simp [hmark, rowless, Option.filter_some]

end TermScan.LinkedTrie
