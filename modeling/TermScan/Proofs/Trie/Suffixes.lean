import Mathlib.Data.List.Infix
import TermScan.Proofs.Trie.Prefixes
import TermScan.Trie.Links

/-!
# States are longest suffixes

A text is known to the automaton by the longest of its suffixes that the trie holds. The failure
link of a node leads to the longest such proper suffix of its string, and reading a character
leads from the longest suffix of a text to that of the longer text.
-/
namespace TermScan.Trie

variable {t : Trie}

theorem tails_eq_cons (u : List Char) : u.tails = u :: u.tails.tail := by cases u <;> simp

/-- Suffixes come with the longest first. -/
theorem pairwise_tails (u : List Char) : u.tails.Pairwise fun r s => s.length < r.length := by
  induction u with
  | nil => simp
  | cons c u ih =>
    rw [List.tails_cons, List.pairwise_cons]
    refine ⟨fun s hs => ?_, ih⟩
    have := ((List.mem_tails s u).mp hs).length_le
    rw [List.length_cons]
    omega

/-- The proper suffixes of a string are the suffixes of its tail. -/
theorem suffix_tail_iff {s w : List Char} (hw : w ≠ []) : s <:+ w.tail ↔ s <:+ w ∧ s ≠ w := by
  cases w with
  | nil => contradiction
  | cons c w =>
    rw [List.tail_cons, List.suffix_cons_iff]
    constructor
    · intro h
      refine ⟨.inr h, ?_⟩
      rintro rfl
      exact absurd h.length_le (by simp)
    · rintro ⟨rfl | h, hne⟩
      · exact absurd rfl hne
      · exact h

/-- The longest suffix of a text that the trie holds. -/
def longest (t : Trie) : List Char → List Char
  | [] => []
  | c :: u => if (t.find? (c :: u)).isSome then c :: u else t.longest u

/-- The node of the longest suffix of a text that the trie holds. -/
def state (t : Trie) (u : List Char) : Nat := (t.find? (t.longest u)).getD root

theorem longest_suffix (t : Trie) (u : List Char) : t.longest u <:+ u := by
  induction u with
  | nil => exact List.suffix_rfl
  | cons c u ih =>
    rw [longest]
    split_ifs
    · exact List.suffix_rfl
    · exact ih.trans (List.suffix_cons c u)

theorem length_longest_tail_le (t : Trie) (u : List Char) :
    (t.longest u.tail).length ≤ u.length - 1 :=
  (longest_suffix t u.tail).length_le.trans_eq List.length_tail

theorem find?_longest (t : Trie) (u : List Char) : t.find? (t.longest u) = some (t.state u) := by
  have held : (t.find? (t.longest u)).isSome := by
    induction u with
    | nil => rfl
    | cons c u ih =>
      rw [longest]
      split_ifs with h
      · exact h
      · exact ih
  obtain ⟨x, hx⟩ := Option.isSome_iff_exists.mp held
  rw [state, hx, Option.getD_some]

theorem longest_of_isSome {u : List Char} (h : (t.find? u).isSome) : t.longest u = u := by
  cases u with
  | nil => rfl
  | cons c u => rw [longest, if_pos h]

theorem state_of_find? {u : List Char} {x : Nat} (h : t.find? u = some x) : t.state u = x := by
  rw [state, longest_of_isSome (by simp [h]), h, Option.getD_some]

/-- No suffix that the trie holds is longer. -/
theorem suffix_longest {s u : List Char} (h : s <:+ u) (held : (t.find? s).isSome) :
    s <:+ t.longest u := by
  induction u with
  | nil => exact h
  | cons c u ih =>
    rw [longest]
    split_ifs with hu
    · exact h
    · rcases List.suffix_cons_iff.mp h with rfl | h
      · exact absurd held hu
      · exact ih h

/-- What the suffixes bring that the trie does not hold is nothing: the longest suffix held has the
same to bring. -/
theorem flatMap_tails_longest {α : Type} {g : List Char → List α}
    (hg : ∀ s, t.find? s = none → g s = []) (u : List Char) :
    u.tails.flatMap g = (t.longest u).tails.flatMap g := by
  induction u with
  | nil => rfl
  | cons c u ih =>
    rw [longest]
    split_ifs with h
    · rfl
    · rw [List.tails_cons, List.flatMap_cons, hg _ (by simpa using h), ih, List.nil_append]

theorem filterMap_tails_longest {α : Type} {g : List Char → Option α}
    (hg : ∀ s, t.find? s = none → g s = none) (u : List Char) :
    u.tails.filterMap g = (t.longest u).tails.filterMap g := by
  rw [List.filterMap_eq_flatMap_toList, List.filterMap_eq_flatMap_toList]
  exact flatMap_tails_longest (fun s hs => by rw [hg s hs]; rfl) u

/-- The node reached on `c` from the longest suffix to the right of which the trie goes on with
`c`; the root if there is none. -/
theorem state_concat (t : Trie) (u : List Char) (c : Char) :
    t.state (u ++ [c]) = ((u.tails.filterMap fun s => t.find? (s ++ [c])).head?).getD root := by
  induction u with
  | nil =>
    simp only [List.nil_append, List.tails, state, longest]
    cases h : t.find? [c] <;> simp [h]
  | cons d u ih =>
    rw [List.tails_cons, List.filterMap_cons, List.cons_append, state, longest]
    cases h : t.find? (d :: (u ++ [c])) with
    | none => rw [if_neg (by simp)]; exact ih
    | some x => simp [h]

/-! Edges -/

theorem mem_edges_iff (sound : t.Sound) {x : Nat} {e : Edge} :
    e ∈ t.edges x ↔ e.source = x ∧ t.child? e.source e.label = some e.target := by
  obtain ⟨source, label, target⟩ := e
  simp only [edges, children, child?, List.mem_map, Prod.exists, Edge.mk.injEq]
  constructor
  · rintro ⟨c, y, hmem, rfl, rfl, rfl⟩
    refine ⟨rfl, ?_⟩
    cases hnode : t.nodes[x]? with
    | none => simp [hnode] at hmem
    | some node =>
      rw [hnode] at hmem
      exact (EdgeMap.mem_entries_iff (sound.valid x node hnode)).mp hmem
  · rintro ⟨rfl, h⟩
    refine ⟨label, target, ?_, rfl, rfl, rfl⟩
    cases hnode : t.nodes[source]? with
    | none => simp [hnode] at h
    | some node =>
      rw [hnode] at h
      exact (EdgeMap.mem_entries_iff (sound.valid source node hnode)).mpr h

/-! Levels -/

/-- The nodes are those of strings of length `d`. -/
def IsLevel (t : Trie) (d : Nat) (nodes : List Nat) : Prop :=
  ∀ x, x ∈ nodes ↔ x < t.size ∧ t.depth x = d

theorem isLevel_root (sound : t.Sound) : t.IsLevel 0 [root] := by
  intro x
  rw [List.mem_singleton]
  constructor
  · rintro rfl
    exact ⟨sound.size_pos, sound.depth_root⟩
  · rintro ⟨hx, hzero⟩
    exact (sound.depth_eq_zero_iff hx).mp hzero

section Level

variable {nodes : List Nat} {d : Nat}

theorem IsLevel.mem_edges_iff (level : t.IsLevel d nodes) (sound : t.Sound) {e : Edge} :
    e ∈ nodes.flatMap t.edges ↔
      t.depth e.source = d ∧ t.child? e.source e.label = some e.target := by
  rw [List.mem_flatMap]
  constructor
  · rintro ⟨x, hx, hmem⟩
    obtain ⟨rfl, hchild⟩ := (Trie.mem_edges_iff sound).mp hmem
    exact ⟨((level _).mp hx).2, hchild⟩
  · rintro ⟨hd, hchild⟩
    obtain ⟨hlt, hsize, -⟩ := sound.edge _ _ _ hchild
    exact ⟨e.source, (level _).mpr ⟨hlt.trans hsize, hd⟩, (Trie.mem_edges_iff sound).mpr
      ⟨rfl, hchild⟩⟩

/-- The edges from a level lead to the next one. -/
theorem IsLevel.next (level : t.IsLevel d nodes) (sound : t.Sound) :
    t.IsLevel (d + 1) ((nodes.flatMap t.edges).map Edge.target) := by
  intro y
  rw [List.mem_map]
  constructor
  · rintro ⟨e, he, rfl⟩
    obtain ⟨hd, hchild⟩ := (level.mem_edges_iff sound).mp he
    obtain ⟨-, hsize, hdepth⟩ := sound.edge _ _ _ hchild
    exact ⟨hsize, by omega⟩
  · rintro ⟨hy, hd⟩
    have hroot : y ≠ root := by
      intro h
      have := (sound.depth_eq_zero_iff hy).mpr h
      omega
    obtain ⟨x, c, hchild⟩ := sound.reached y hy hroot
    obtain ⟨-, -, hdepth⟩ := sound.edge x c y hchild
    exact ⟨⟨x, c, y⟩, (level.mem_edges_iff sound).mpr ⟨by dsimp only; omega, hchild⟩, rfl⟩

end Level

/-! Tables filled breadth first -/

section Table

variable {α : Type} {Correct : Nat → α → Prop} {update : Array α → Edge → α}

/-- The table has a correct entry for `x`. -/
def EntryAt (Correct : Nat → α → Prop) (table : Array α) (x : Nat) : Prop :=
  ∃ v, table[x]? = some v ∧ Correct x v

/-- The entries of all nodes of at most the given depth are correct. -/
def FilledTo (t : Trie) (Correct : Nat → α → Prop) (table : Array α) (depth : Nat) : Prop :=
  table.size = t.size ∧ ∀ x < t.size, t.depth x ≤ depth → EntryAt Correct table x

/-- Writes the entry at the end of an edge. -/
def fill (update : Array α → Edge → α) (table : Array α) (e : Edge) : Array α :=
  table.setIfInBounds e.target (update table e)

/-- The entry at the end of an edge is found from the entries of nodes nearer to the root. -/
def Extends (t : Trie) (Correct : Nat → α → Prop) (update : Array α → Edge → α) : Prop :=
  ∀ table e, t.child? e.source e.label = some e.target →
    t.FilledTo Correct table (t.depth e.source) → Correct e.target (update table e)

theorem EntryAt.set {table : Array α} {x y : Nat} {v : α} (h : EntryAt Correct table x)
    (hv : Correct y v) : EntryAt Correct (table.setIfInBounds y v) x := by
  obtain ⟨old, hold, hcorrect⟩ := h
  rw [EntryAt, Array.getElem?_setIfInBounds]
  split_ifs with hx hlt
  · subst hx; exact ⟨_, rfl, hv⟩
  · subst hx
    rw [Array.getElem?_eq_none (Nat.le_of_not_lt hlt)] at hold
    contradiction
  · exact ⟨old, hold, hcorrect⟩

theorem entryAt_set {table : Array α} {y : Nat} {v : α} (hy : y < table.size) (hv : Correct y v) :
    EntryAt Correct (table.setIfInBounds y v) y :=
  ⟨v, by rw [Array.getElem?_setIfInBounds, if_pos rfl, if_pos hy], hv⟩

theorem FilledTo.set {table : Array α} {d y : Nat} {v : α} (filled : t.FilledTo Correct table d)
    (hv : Correct y v) : t.FilledTo Correct (table.setIfInBounds y v) d :=
  ⟨by rw [Array.size_setIfInBounds, filled.1], fun x hx hd => (filled.2 x hx hd).set hv⟩

/-- A table keeps its correct entries and gets those of fresh nodes. -/
structure Grown (Correct : Nat → α → Prop) (table grown : Array α) (fresh : List Nat) : Prop where
  size : grown.size = table.size
  entry : ∀ x, EntryAt Correct table x ∨ x ∈ fresh → EntryAt Correct grown x

theorem Grown.refl (table : Array α) : Grown Correct table table [] :=
  ⟨rfl, fun x h => by simpa using h⟩

/-- One more entry has been written before. -/
theorem Grown.cons {table grown : Array α} {fresh : List Nat} {y : Nat} {v : α}
    (hy : y < table.size) (hv : Correct y v)
    (h : Grown Correct (table.setIfInBounds y v) grown fresh) :
    Grown Correct table grown (y :: fresh) := by
  refine ⟨by rw [h.size, Array.size_setIfInBounds], fun x hx => h.entry x ?_⟩
  rcases hx with hx | hx
  · exact .inl (hx.set hv)
  · rcases List.mem_cons.mp hx with rfl | hx
    · exact .inl (entryAt_set hy hv)
    · exact .inr hx

/-- A level of edges extends a table that is filled down to where they start. -/
theorem grown_foldl_level (sound : t.Sound) (extend : t.Extends Correct update) {d : Nat}
    (out : List Edge)
    (hout : ∀ e ∈ out, t.depth e.source = d ∧ t.child? e.source e.label = some e.target)
    {table : Array α} (filled : t.FilledTo Correct table d) :
    Grown Correct table (out.foldl (fill update) table) (out.map Edge.target) := by
  induction out generalizing table with
  | nil => exact .refl table
  | cons e out ih =>
    rw [List.forall_mem_cons] at hout
    obtain ⟨⟨hdepth, hedge⟩, hout⟩ := hout
    have correct : Correct e.target (update table e) := extend table e hedge (hdepth ▸ filled)
    have htarget : e.target < t.size := (sound.edge _ _ _ hedge).2.1
    exact .cons (filled.1 ▸ htarget) correct (ih hout (filled.set correct))

theorem filledTo_foldl_edgesBelow (sound : t.Sound) (extend : t.Extends Correct update)
    (levels : Nat) {nodes : List Nat} {d : Nat} (level : t.IsLevel d nodes) {table : Array α}
    (filled : t.FilledTo Correct table d) :
    t.FilledTo Correct ((t.edgesBelow levels nodes).foldl (fill update) table) (d + levels) := by
  induction levels generalizing nodes d table with
  | zero => exact filled
  | succ levels ih =>
    have next := level.next sound
    obtain ⟨hsize, hentry⟩ := grown_foldl_level sound extend (nodes.flatMap t.edges)
      (fun e he => (level.mem_edges_iff sound).mp he) filled
    rw [edgesBelow]
    split
    · next hnil =>
      refine ⟨filled.1, fun x hx _ => filled.2 x hx (sound.depth_le_of_no_level ?_ hx)⟩
      intro y hy hd
      have := (next y).mpr ⟨hy, hd⟩
      simp [hnil] at this
    · rw [List.foldl_append, show d + (levels + 1) = d + 1 + levels by omega]
      refine ih next ⟨hsize.trans filled.1, fun y hy hd => hentry y ?_⟩
      by_cases hle : t.depth y ≤ d
      · exact .inl (filled.2 y hy hle)
      · exact .inr ((next y).mpr ⟨hy, by omega⟩)

/-- A table filled along the edges from the root on is correct at every node. -/
theorem entryAt_foldl_breadthFirst (sound : t.Sound) (extend : t.Extends Correct update)
    {init : Array α} (hsize : init.size = t.size) (hroot : EntryAt Correct init root) {x : Nat}
    (hx : x < t.size) : EntryAt Correct (t.breadthFirst.foldl (fill update) init) x := by
  have filled : t.FilledTo Correct init 0 := by
    refine ⟨hsize, fun x hx hd => ?_⟩
    rwa [(sound.depth_eq_zero_iff hx).mp (Nat.le_zero.mp hd)]
  refine (filledTo_foldl_edgesBelow sound extend t.size (isLevel_root sound) filled).2 x hx ?_
  have := sound.depth_lt hx
  omega

end Table

/-! Failure links -/

/-- The failure link of a node is the node of the longest proper suffix of its string. -/
def IsFailure (t : Trie) (x f : Nat) : Prop := ∀ w, t.find? w = some x → f = t.state w.tail

/-- The links of the nodes of strings of at most the given length are those of their longest proper
suffixes. -/
def LinkedTo (t : Trie) (failure : Array Nat) (length : Nat) : Prop :=
  ∀ w x, t.find? w = some x → w.length ≤ length → failure[x]? = some (t.state w.tail)

/-- Falling back along correct links finds the longest suffix after which the trie goes on. -/
theorem follow_eq {failure : Array Nat} {c : Char} (fuel : Nat) (linked : t.LinkedTo failure fuel)
    {w : List Char} {x : Nat} (hw : t.find? w = some x) (hfuel : w.length ≤ fuel) :
    t.follow failure c fuel x =
      ((w.tails.filterMap fun s => t.find? (s ++ [c])).head?).getD root := by
  induction fuel generalizing w x with
  | zero =>
    obtain rfl := List.eq_nil_of_length_eq_zero (Nat.le_zero.mp hfuel)
    cases hw
    cases h : t.child? root c <;> simp [follow, h, find?, walk?]
  | succ fuel ih =>
    have hstep : t.find? (w ++ [c]) = t.child? x c := by rw [find?_concat, hw, Option.bind_some]
    rw [follow]
    cases hchild : t.child? x c with
    | some y => rw [tails_eq_cons, List.filterMap_cons, hstep, hchild]; rfl
    | none =>
      have shorter := ih (fun w x hw hle => linked w x hw (by omega)) (find?_longest t w.tail)
        (by have := length_longest_tail_le t w; omega)
      dsimp only
      rw [linked w x hw hfuel, Option.getD_some, shorter, ← filterMap_tails_longest]
      · cases w with
        | nil => rfl
        | cons d w => rw [List.tails_cons, List.filterMap_cons, hstep, hchild, List.tail_cons]
      · intro s hs
        rw [find?_concat, hs, Option.bind_none]

/-- Falling back from the longest suffix of a text leads to that of the longer text. -/
theorem follow_state (sound : t.Sound) {failure : Array Nat} {u : List Char} {c : Char}
    (linked : t.LinkedTo failure (t.longest u).length) :
    t.follow failure c (t.depth (t.state u)) (t.state u) = t.state (u ++ [c]) := by
  have hfind := find?_longest t u
  rw [(sound.find?_spec hfind).2, follow_eq _ linked hfind le_rfl, state_concat,
    ← filterMap_tails_longest]
  intro s hs
  rw [find?_concat, hs, Option.bind_none]

theorem FilledTo.linkedTo (sound : t.Sound) {failure : Array Nat} {d : Nat}
    (filled : t.FilledTo t.IsFailure failure d) : t.LinkedTo failure d := by
  intro u x hu hle
  obtain ⟨hx, hdepth⟩ := sound.find?_spec hu
  obtain ⟨f, hf, hfailure⟩ := filled.2 x hx (by omega)
  rw [hf, hfailure u hu]

theorem isFailure_child (sound : t.Sound) {u : List Char} {x y : Nat} {c : Char}
    (hu : t.find? u = some x) (hchild : t.child? x c = some y) :
    t.IsFailure y (t.state (u ++ [c]).tail) := by
  intro w hw
  have hconcat : t.find? (u ++ [c]) = some y := by
    rw [find?_concat, hu, Option.bind_some, hchild]
  rw [sound.find?_injective hw hconcat]

theorem ne_nil_of_find? {u : List Char} {x : Nat} (hu : t.find? u = some x) (hroot : x ≠ root) :
    u ≠ [] := by
  rintro rfl
  exact hroot (Option.some.inj (hu.symm.trans (find?_nil t)))

theorem extends_failure (sound : t.Sound) :
    t.Extends t.IsFailure fun failure e =>
      if e.source = root then root
      else
        let x := failure[e.source]?.getD root
        t.follow failure e.label (t.depth x) x := by
  intro failure e hedge filled
  have linked := filled.linkedTo sound
  have hsource : e.source < t.size :=
    (sound.edge _ _ _ hedge).1.trans (sound.edge _ _ _ hedge).2.1
  obtain ⟨u, hu⟩ := sound.exists_find? hsource
  have hdepth := (sound.find?_spec hu).2
  have hchild := isFailure_child sound hu hedge
  beta_reduce
  by_cases hroot : e.source = root
  · obtain rfl : u = [] := sound.find?_injective hu (by rw [hroot, find?_nil])
    rw [if_pos hroot]
    exact hchild
  · have hlength := length_longest_tail_le t u
    rw [if_neg hroot, linked u e.source hu (by omega)]
    dsimp only [Option.getD_some]
    rw [follow_state sound fun w x hw hle => linked w x hw (by omega),
      ← List.tail_append_of_ne_nil (ne_nil_of_find? hu hroot)]
    exact hchild

theorem failureLinks_eq (sound : t.Sound) {w : List Char} {x : Nat} (hw : t.find? w = some x) :
    t.failureLinks[x]? = some (t.state w.tail) := by
  have hroot : EntryAt t.IsFailure (Array.replicate t.size root) root := by
    refine ⟨root, by simp [sound.size_pos, root], fun w hw => ?_⟩
    obtain rfl := sound.find?_injective hw (find?_nil t)
    rfl
  obtain ⟨f, hf, hfailure⟩ := entryAt_foldl_breadthFirst sound (extends_failure sound)
    (by simp) hroot (sound.find?_spec hw).1
  rw [← hfailure w hw, ← hf]
  rfl

end TermScan.Trie

namespace TermScan.LinkedTrie

variable {t : Trie}

theorem failureLink_ofTrie (sound : t.Sound) {w : List Char} {x : Nat} (hw : t.find? w = some x) :
    (ofTrie t).failureLink x = t.state w.tail := by
  rw [failureLink, ofTrie, Trie.failureLinks_eq sound hw, Option.getD_some]

/-- Reading a character leads from the longest suffix of a text to that of the longer text. -/
theorem step_state (sound : t.Sound) (u : List Char) (c : Char) :
    (ofTrie t).step (t.state u) c = t.state (u ++ [c]) :=
  Trie.follow_state sound fun _ _ hw _ => Trie.failureLinks_eq sound hw

end TermScan.LinkedTrie
