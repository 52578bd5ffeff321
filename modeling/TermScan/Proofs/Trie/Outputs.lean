import TermScan.Proofs.Trie.Chains

/-!
# What an output link says

The pass links a node to its failure if that accepts, and else to where the failure is linked. The
children of the root are never linked. So the root, if it accepts, is not on the output chain of a
node whose string ends in a child of the root; but all other accepting suffixes are.
-/
namespace TermScan.Trie

variable {t : Trie} {accept : Nat → Bool}

/-- The last character of a string is a child of the root. -/
def endsInChild (t : Trie) (w : List Char) : Bool :=
  w.getLast?.any fun c => (t.find? [c]).isSome

/-- The nodes that output chains tell of, below the node of a string. -/
def chained (t : Trie) (accept : Nat → Bool) (w : List Char) (y : Nat) : Bool :=
  accept y && (y != root || !t.endsInChild w)

/-- An output link leads to the longest proper suffix that the chain tells of. -/
def IsOutput (t : Trie) (accept : Nat → Bool) (x : Nat) (link : Option Nat) : Prop :=
  ∀ w, t.find? w = some x → link = (t.markedBelow (t.chained accept w) w).head?

theorem chained_eq_of_not_accept (h : accept root = false) (w : List Char) :
    t.chained accept w = accept := by
  funext y
  rw [chained]
  by_cases hy : y = root
  · simp [hy, h]
  · simp [hy]

/-- At the node of the string itself every mark counts. -/
theorem chained_self (sound : t.Sound) {w : List Char} {x : Nat} (hw : t.find? w = some x) :
    t.chained accept w x = accept x := by
  rw [chained]
  by_cases hroot : x = root
  · obtain rfl := sound.find?_injective hw (hroot ▸ find?_nil t)
    simp [endsInChild]
  · simp [hroot]

/-- Where chains meet, they tell of the same nodes. -/
theorem markedBelow_chained {s w : List Char} (h : s <:+ w) :
    t.markedBelow (t.chained accept s) s = t.markedBelow (t.chained accept w) s := by
  by_cases hne : s = []
  · subst hne
    rfl
  · obtain ⟨u, rfl⟩ := h
    have hlast : t.endsInChild (u ++ s) = t.endsInChild s := by
      rw [endsInChild, endsInChild, List.getLast?_append_of_ne_nil _ hne]
    unfold chained
    rw [hlast]

/-- Up to the children of the root there is nothing to tell of. -/
theorem isOutput_of_depth_le_one (sound : t.Sound) {x : Nat} (h : t.depth x ≤ 1) :
    t.IsOutput accept x none := by
  intro w hw
  rw [(sound.find?_spec hw).2] at h
  cases w with
  | nil => rfl
  | cons c w =>
    obtain rfl : w = [] := by simpa using h
    simp [markedBelow, markedAt, chained, endsInChild, hw]

/-- The output link of a child is read off its failure link and that node's output link. -/
theorem isOutput_child (sound : t.Sound) {u : List Char} {x y : Nat} {c : Char} (hne : u ≠ [])
    (hu : t.find? u = some x) (hchild : t.child? x c = some y) {nearest : Option Nat}
    (hnearest : t.IsOutput accept (t.state (u ++ [c]).tail) nearest) :
    t.IsOutput accept y (if accept (t.state (u ++ [c]).tail) then
      some (t.state (u ++ [c]).tail) else nearest) := by
  intro w hw
  have hconcat : t.find? (u ++ [c]) = some y := by
    rw [find?_concat, hu, Option.bind_some, hchild]
  obtain rfl := sound.find?_injective hw hconcat
  have hfind := find?_longest t (u ++ [c]).tail
  have hsuffix := (longest_suffix t (u ++ [c]).tail).trans (List.tail_suffix _)
  -- if the failure is the root, no suffix of one character is held
  have hroot : t.state (u ++ [c]).tail = root → t.endsInChild (u ++ [c]) = false := by
    intro h
    rw [endsInChild, List.getLast?_concat, Option.any_some, Option.isSome_eq_false_iff,
      Option.isNone_iff_eq_none]
    by_contra hheld
    have hlast : [c] <:+ (u ++ [c]).tail := by
      rw [List.tail_append_of_ne_nil hne]
      exact List.suffix_append _ _
    have hshort := (suffix_longest hlast (Option.isSome_iff_ne_none.mpr hheld)).length_le
    rw [sound.find?_injective (hfind.trans (congrArg some h)) (find?_nil t)] at hshort
    simp at hshort
  have hmark : t.chained accept (u ++ [c]) (t.state (u ++ [c]).tail) =
      accept (t.state (u ++ [c]).tail) := by
    rw [chained]
    by_cases h : t.state (u ++ [c]).tail = root
    · simp [hroot h]
    · simp [h]
  rw [head?_markedBelow t _ (by simp), hmark, hnearest _ hfind, markedBelow_chained hsuffix]

end TermScan.Trie

namespace TermScan.LinkedTrie

open Trie

variable {t : Trie} {accept : Nat → Bool}

theorem extends_output (sound : t.Sound) :
    t.Extends (t.IsOutput accept) fun links e =>
      let f := (ofTrie t).failureLink e.target
      if e.source = root then none else if accept f then some f else links[f]?.join := by
  intro links e hedge filled
  obtain ⟨hlt, hsize, hdepth⟩ := sound.edge _ _ _ hedge
  dsimp only
  by_cases hsource : e.source = root
  · rw [if_pos hsource]
    refine isOutput_of_depth_le_one sound ?_
    rw [hdepth, hsource, sound.depth_root]
  · obtain ⟨u, hu⟩ := sound.exists_find? (hlt.trans hsize)
    have hne := ne_nil_of_find? hu hsource
    have htarget : t.find? (u ++ [e.label]) = some e.target := by
      rw [find?_concat, hu, Option.bind_some, hedge]
    -- the failure of the target is no deeper than the source, so its link stands
    have hfind := find?_longest t (u ++ [e.label]).tail
    obtain ⟨hheld, hshort⟩ := sound.find?_spec hfind
    have hle := length_longest_tail_le t (u ++ [e.label])
    have hlength := (sound.find?_spec hu).2
    rw [List.length_append, List.length_singleton] at hle
    obtain ⟨link, hlink, houtput⟩ := filled.2 _ hheld (by omega)
    rw [if_neg hsource, failureLink_ofTrie sound htarget, hlink, Option.join_some]
    exact isOutput_child sound hne hu hedge houtput

theorem outputLinks_eq (sound : t.Sound) {w : List Char} {x : Nat} (hw : t.find? w = some x) :
    ((ofTrie t).outputLinks accept)[x]? = some (t.markedBelow (t.chained accept w) w).head? := by
  have hroot : EntryAt (t.IsOutput accept) (Array.replicate t.size none) root :=
    ⟨none, by simp [sound.size_pos, root],
      isOutput_of_depth_le_one sound (by simp [sound.depth_root])⟩
  obtain ⟨link, hlink, houtput⟩ := entryAt_foldl_breadthFirst sound (extends_output sound)
    (by simp) hroot (sound.find?_spec hw).1
  rw [← houtput w hw, ← hlink]
  rfl

/-- Along output links a node meets the accepting proper suffixes that the chain tells of, each once
and the longest first. -/
theorem chain_outputLinks (sound : t.Sound) {w : List Char} {x : Nat} (hw : t.find? w = some x) :
    (ofTrie t).chain ((ofTrie t).outputLinks accept) x = t.markedBelow (t.chained accept w) w :=
  chain_of_linked sound (t.chained accept) (fun _ _ => outputLinks_eq sound)
    (fun _ _ => markedBelow_chained) hw

end TermScan.LinkedTrie
