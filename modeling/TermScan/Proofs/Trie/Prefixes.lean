import Mathlib.Data.List.Infix
import TermScan.Proofs.EdgeMap
import TermScan.Trie.Basic

/-!
# The nodes of a trie are the prefixes of its strings

Every node is the node of exactly one string, and the strings that have a node are the prefixes
of those inserted. The invariant is kept by the only change there is: a new node below an old one.
-/
namespace TermScan.Trie

variable {t : Trie}

/-- What every trie built by insertions satisfies. Nodes are numbered from the root on, and every
other node hangs on exactly one edge. -/
structure Sound (t : Trie) : Prop where
  size_pos : 0 < t.size
  valid : ∀ (x : Nat) (node : TrieNode), t.nodes[x]? = some node → node.edges.Valid
  depth_root : t.depth root = 0
  edge : ∀ x c y, t.child? x c = some y → x < y ∧ y < t.size ∧ t.depth y = t.depth x + 1
  unique : ∀ x x' c c' y, t.child? x c = some y → t.child? x' c' = some y → x = x' ∧ c = c'
  reached : ∀ y, y < t.size → y ≠ root → ∃ x c, t.child? x c = some y

/-! One more node -/

@[simp] theorem size_addChild (t : Trie) (x : Nat) (c : Char) :
    (t.addChild x c).size = t.size + 1 := by simp [addChild, size]

theorem getElem?_addChild (t : Trie) {x : Nat} (hx : x < t.size) (c : Char) (y : Nat) :
    (t.addChild x c).nodes[y]? =
      if y = t.size then some ⟨.empty, t.depth x + 1⟩
      else if y = x then t.nodes[y]?.map fun node => { node with edges := node.edges.set c t.size }
      else t.nodes[y]? := by
  have hne : x ≠ t.nodes.size := hx.ne
  simp only [addChild, size, Array.getElem?_modify, Array.getElem?_push]
  by_cases hyx : x = y
  · subst hyx
    simp [hne]
  · by_cases hy : y = t.nodes.size <;> simp [hyx, hy, Ne.symm hyx, hne]

theorem depth_addChild (t : Trie) {x : Nat} (hx : x < t.size) (c : Char) (y : Nat) :
    (t.addChild x c).depth y = if y = t.size then t.depth x + 1 else t.depth y := by
  unfold depth
  rw [getElem?_addChild t hx]
  split_ifs with hy hyx
  · rfl
  · cases t.nodes[y]? <;> rfl
  · rfl

theorem child?_eq_none_of_size_le {y : Nat} (h : t.size ≤ y) (c : Char) : t.child? y c = none := by
  have : t.nodes[y]? = none := Array.getElem?_eq_none h
  simp [child?, this]

theorem child?_addChild (sound : t.Sound) {x : Nat} (hx : x < t.size) (c : Char) (y : Nat)
    (d : Char) :
    (t.addChild x c).child? y d = if y = x ∧ d = c then some t.size else t.child? y d := by
  have hne : x ≠ t.size := hx.ne
  rw [child?, getElem?_addChild t hx]
  by_cases hy : y = t.size
  · subst hy
    rw [if_pos rfl, if_neg (by tauto), child?_eq_none_of_size_le le_rfl]
    rfl
  · rw [if_neg hy]
    by_cases hyx : y = x
    · subst hyx
      have hnode : t.nodes[y]? = some t.nodes[y] := Array.getElem?_eq_getElem hx
      simp only [if_true, child?, hnode, Option.map_some, true_and]
      exact EdgeMap.get?_set (sound.valid y _ hnode) c t.size d
    · rw [if_neg hyx, if_neg (by tauto)]
      rfl

theorem Sound.addChild (sound : t.Sound) {x : Nat} (hx : x < t.size) {c : Char}
    (new : t.child? x c = none) : (t.addChild x c).Sound where
  size_pos := by simp
  valid y node h := by
    rw [getElem?_addChild t hx] at h
    split_ifs at h with hy hyx
    · cases h
      exact EdgeMap.valid_empty
    · obtain ⟨old, hold, rfl⟩ := Option.map_eq_some_iff.mp h
      exact EdgeMap.valid_set (sound.valid y old hold) c t.size
    · exact sound.valid y node h
  depth_root := by
    rw [depth_addChild t hx, if_neg (by have := sound.size_pos; simp [root]; omega)]
    exact sound.depth_root
  edge y d z h := by
    rw [child?_addChild sound hx] at h
    rw [depth_addChild t hx, depth_addChild t hx, size_addChild]
    split_ifs at h with hyd
    · cases h
      obtain ⟨rfl, rfl⟩ := hyd
      rw [if_pos rfl, if_neg hx.ne]
      exact ⟨hx, by omega, rfl⟩
    · obtain ⟨hlt, hz, hdepth⟩ := sound.edge y d z h
      rw [if_neg hz.ne, if_neg (by omega : y ≠ t.size)]
      exact ⟨hlt, by omega, hdepth⟩
  unique y y' d d' z h h' := by
    rw [child?_addChild sound hx] at h h'
    split_ifs at h h' with hyd hyd' hyd'
    · exact ⟨hyd.1.trans hyd'.1.symm, hyd.2.trans hyd'.2.symm⟩
    · cases h
      exact absurd (sound.edge _ _ _ h').2.1 (lt_irrefl _)
    · cases h'
      exact absurd (sound.edge _ _ _ h).2.1 (lt_irrefl _)
    · exact sound.unique y y' d d' z h h'
  reached z hz hroot := by
    rw [size_addChild] at hz
    by_cases hfresh : z = t.size
    · exact ⟨x, c, by rw [child?_addChild sound hx, if_pos ⟨rfl, rfl⟩, hfresh]⟩
    · obtain ⟨y, d, h⟩ := sound.reached z (by omega) hroot
      refine ⟨y, d, ?_⟩
      rw [child?_addChild sound hx, if_neg ?_, h]
      rintro ⟨rfl, rfl⟩
      simp [new] at h

theorem sound_empty : empty.Sound where
  size_pos := by simp [empty, size]
  valid x node h := by
    cases x with
    | zero => simp [empty] at h; subst h; exact EdgeMap.valid_empty
    | succ x => simp [empty] at h
  depth_root := rfl
  edge x c y h := by cases x <;> simp [empty, child?] at h
  unique x x' c c' y h := by cases x <;> simp [empty, child?] at h
  reached y hy hroot := by simp [empty, size] at hy; exact absurd hy hroot

/-! Nodes below nodes -/

/-- What holds of the root and passes from a node to those below it holds of every node. -/
theorem Sound.node_induction (sound : t.Sound) {motive : Nat → Prop} (hroot : motive root)
    (hchild : ∀ y c x, t.child? y c = some x → motive y → motive x) {x : Nat} (hx : x < t.size) :
    motive x := by
  induction x using Nat.strong_induction_on with
  | _ x ih =>
    by_cases hne : x = root
    · rw [hne]
      exact hroot
    · obtain ⟨y, c, h⟩ := sound.reached x hx hne
      obtain ⟨hlt, -, -⟩ := sound.edge y c x h
      exact hchild y c x h (ih y hlt (hlt.trans hx))

/-- Only the root has no characters. -/
theorem Sound.depth_eq_zero_iff (sound : t.Sound) {x : Nat} (hx : x < t.size) :
    t.depth x = 0 ↔ x = root := by
  constructor
  · intro hzero
    by_contra hne
    obtain ⟨y, c, h⟩ := sound.reached x hx hne
    obtain ⟨-, -, hdepth⟩ := sound.edge y c x h
    omega
  · rintro rfl
    exact sound.depth_root

/-- A level without nodes has none below it. -/
theorem Sound.depth_le_of_no_level (sound : t.Sound) {d : Nat}
    (h : ∀ x < t.size, t.depth x ≠ d + 1) {x : Nat} (hx : x < t.size) : t.depth x ≤ d := by
  refine sound.node_induction (motive := (t.depth · ≤ d)) ?_ (fun y c x hchild hle => ?_) hx
  · rw [sound.depth_root]
    exact Nat.zero_le d
  · obtain ⟨-, hlt, hdepth⟩ := sound.edge y c x hchild
    have := h x hlt
    omega

/-! The string of a node -/

theorem walk?_append (t : Trie) (x : Nat) (u w : List Char) :
    t.walk? x (u ++ w) = (t.walk? x u).bind (t.walk? · w) := by
  induction u generalizing x with
  | nil => rfl
  | cons c u ih =>
    rw [List.cons_append, walk?, walk?]
    cases t.child? x c with
    | none => rfl
    | some y => exact ih y

@[simp] theorem find?_nil (t : Trie) : t.find? [] = some root := rfl

theorem find?_concat (t : Trie) (u : List Char) (c : Char) :
    t.find? (u ++ [c]) = (t.find? u).bind (t.child? · c) := by
  rw [find?, walk?_append]
  congr 1
  funext x
  rw [walk?]
  cases t.child? x c <;> rfl

/-- The trie holds every string that it holds something longer of. -/
theorem find?_isSome_of_prefix {u w : List Char} (h : u <+: w) (hw : (t.find? w).isSome) :
    (t.find? u).isSome := by
  obtain ⟨v, rfl⟩ := h
  rw [find?, walk?_append, Option.isSome_bind] at hw
  rw [find?]
  cases hu : t.walk? root u with
  | none => simp [hu] at hw
  | some x => rfl

theorem Sound.find?_spec (sound : t.Sound) {w : List Char} {x : Nat} (h : t.find? w = some x) :
    x < t.size ∧ t.depth x = w.length := by
  induction w using List.reverseRecOn generalizing x with
  | nil =>
    cases h
    exact ⟨sound.size_pos, sound.depth_root⟩
  | append_singleton w c ih =>
    rw [find?_concat, Option.bind_eq_some_iff] at h
    obtain ⟨y, hy, hchild⟩ := h
    obtain ⟨-, hlt, hdepth⟩ := sound.edge y c x hchild
    exact ⟨hlt, by rw [hdepth, (ih hy).2, List.length_append, List.length_singleton]⟩

/-- Different strings have different nodes. -/
theorem Sound.find?_injective (sound : t.Sound) {u w : List Char} {x : Nat}
    (hu : t.find? u = some x) (hw : t.find? w = some x) : u = w := by
  induction u using List.reverseRecOn generalizing w x with
  | nil =>
    have := (sound.find?_spec hw).2
    rw [(sound.find?_spec hu).2] at this
    exact (List.eq_nil_of_length_eq_zero this.symm).symm
  | append_singleton u c ih =>
    cases w using List.reverseRecOn with
    | nil =>
      have := (sound.find?_spec hu).2
      rw [(sound.find?_spec hw).2] at this
      simp at this
    | append_singleton w d =>
      rw [find?_concat, Option.bind_eq_some_iff] at hu hw
      obtain ⟨y, hy, hchild⟩ := hu
      obtain ⟨y', hy', hchild'⟩ := hw
      obtain ⟨rfl, rfl⟩ := sound.unique y y' c d x hchild hchild'
      rw [ih hy hy']

/-- Every node has a string. -/
theorem Sound.exists_find? (sound : t.Sound) {x : Nat} (hx : x < t.size) :
    ∃ w, t.find? w = some x := by
  refine sound.node_induction (motive := fun x => ∃ w, t.find? w = some x) ⟨[], find?_nil t⟩ ?_ hx
  rintro y c x hchild ⟨w, hw⟩
  exact ⟨w ++ [c], by rw [find?_concat, hw, Option.bind_some, hchild]⟩

/-- No string has as many characters as there are nodes. -/
theorem Sound.depth_lt (sound : t.Sound) {x : Nat} (hx : x < t.size) : t.depth x < t.size := by
  have hle : t.depth x ≤ x := by
    refine sound.node_induction (motive := fun x => t.depth x ≤ x) ?_
      (fun y c x hchild hle => ?_) hx
    · rw [sound.depth_root]
      exact Nat.zero_le root
    · obtain ⟨hlt, -, hdepth⟩ := sound.edge y c x hchild
      omega
  omega

/-! Insertion -/

theorem find?_addChild (sound : t.Sound) {x : Nat} {c : Char} {p : List Char}
    (hp : t.find? p = some x) (new : t.child? x c = none) (w : List Char) :
    (t.addChild x c).find? w =
      if p ++ [c] <+: w then (if w = p ++ [c] then some t.size else none) else t.find? w := by
  have hx := (sound.find?_spec hp).1
  have fresh (d : Char) : (t.addChild x c).child? t.size d = none := by
    rw [child?_addChild sound hx, if_neg (by rintro ⟨h, -⟩; omega)]
    exact child?_eq_none_of_size_le le_rfl d
  induction w using List.reverseRecOn with
  | nil => simp
  | append_singleton w d ih =>
    have hconcat : p ++ [c] <+: w ++ [d] ↔ p ++ [c] = w ++ [d] ∨ p ++ [c] <+: w :=
      List.prefix_concat_iff
    rw [find?_concat, ih]
    by_cases hpre : p ++ [c] <+: w
    · have hlong : w ++ [d] ≠ p ++ [c] := by
        intro h
        have := hpre.length_le
        have := congrArg List.length h
        simp at *
        omega
      rw [if_pos hpre, if_pos (hconcat.mpr (.inr hpre)), if_neg hlong]
      split_ifs with h
      · exact fresh d
      · rfl
    · rw [if_neg hpre]
      by_cases heq : p ++ [c] = w ++ [d]
      · obtain ⟨rfl, hc⟩ := List.append_inj' heq rfl
        cases hc
        rw [if_pos List.prefix_rfl, if_pos rfl, hp, Option.bind_some, child?_addChild sound hx,
          if_pos ⟨rfl, rfl⟩]
      · rw [if_neg (by rw [hconcat]; tauto), find?_concat]
        cases hw : t.find? w with
        | none => rfl
        | some y =>
          rw [Option.bind_some, Option.bind_some, child?_addChild sound hx, if_neg]
          rintro ⟨rfl, rfl⟩
          rw [sound.find?_injective hw hp] at heq
          exact heq rfl

theorem insertFrom_of_child {x y : Nat} {c : Char} (h : t.child? x c = some y) (w : List Char) :
    t.insertFrom x (c :: w) = t.insertFrom y w := by rw [insertFrom, h]

theorem insertFrom_of_new {x : Nat} {c : Char} (h : t.child? x c = none) (w : List Char) :
    t.insertFrom x (c :: w) = (t.addChild x c).insertFrom t.size w := by rw [insertFrom, h]; rfl

/-- What adding the rest `w` of a string below the node of `p` leaves: the node of the whole, and
no other strings than before but the prefixes of the whole. -/
theorem insertFrom_spec (sound : t.Sound) {x : Nat} {p : List Char} (hp : t.find? p = some x)
    (w : List Char) :
    (t.insertFrom x w).1.Sound ∧ (t.insertFrom x w).1.find? (p ++ w) = some (t.insertFrom x w).2 ∧
      (∀ u y, t.find? u = some y → (t.insertFrom x w).1.find? u = some y) ∧
      ∀ u, ((t.insertFrom x w).1.find? u).isSome ↔ (t.find? u).isSome ∨ u <+: p ++ w := by
  induction w generalizing t x p with
  | nil =>
    refine ⟨sound, by simpa [insertFrom] using hp, fun u y h => h, fun u => ?_⟩
    rw [List.append_nil, insertFrom]
    exact ⟨.inl, fun h => h.elim id fun h => find?_isSome_of_prefix h (by simp [hp])⟩
  | cons c w ih =>
    rw [show p ++ c :: w = (p ++ [c]) ++ w by simp]
    cases hchild : t.child? x c with
    | some y =>
      rw [insertFrom_of_child hchild]
      exact ih sound (by rw [find?_concat, hp, Option.bind_some, hchild])
    | none =>
      rw [insertFrom_of_new hchild]
      have hx := (sound.find?_spec hp).1
      have hnew := find?_addChild sound hp hchild
      have absent : t.find? (p ++ [c]) = none := by rw [find?_concat, hp, Option.bind_some, hchild]
      have keeps (u : List Char) (h : (t.find? u).isSome) : ¬p ++ [c] <+: u := fun hpre => by
        have := find?_isSome_of_prefix hpre h
        simp [absent] at this
      obtain ⟨hsound, hfind, hold, hmem⟩ :=
        ih (sound.addChild hx hchild) (x := t.size)
          (by rw [hnew, if_pos List.prefix_rfl, if_pos rfl])
      refine ⟨hsound, hfind, fun u y h => hold u y ?_, fun u => ?_⟩
      · rw [hnew, if_neg (keeps u (by simp [h])), h]
      · rw [hmem, hnew]
        by_cases hpre : p ++ [c] <+: u
        · have : ¬(t.find? u).isSome := fun h => keeps u h hpre
          by_cases hu : u = p ++ [c]
          · subst hu; simp
          · simp [hpre, hu, this]
        · rw [if_neg hpre]

theorem insert_spec (sound : t.Sound) (w : List Char) :
    (t.insert w).1.Sound ∧ (t.insert w).1.find? w = some (t.insert w).2 ∧
      (∀ u y, t.find? u = some y → (t.insert w).1.find? u = some y) ∧
      ∀ u, ((t.insert w).1.find? u).isSome ↔ (t.find? u).isSome ∨ u <+: w :=
  insertFrom_spec sound (find?_nil t) w

/-- No node is lost. -/
theorem size_le_insert (sound : t.Sound) (word : List Char) : t.size ≤ (t.insert word).1.size := by
  obtain ⟨sound', -, hkeeps, -⟩ := insert_spec sound word
  by_contra hlt
  obtain ⟨w, hw⟩ := sound.exists_find? (Nat.not_le.mp hlt)
  exact Nat.lt_irrefl _ (sound'.find?_spec (hkeeps w _ hw)).1

/-- The node of a string that was not there is a new one. -/
theorem size_le_of_new (sound : t.Sound) {word w : List Char} {x : Nat} (hnew : t.find? w = none)
    (hw : (t.insert word).1.find? w = some x) : t.size ≤ x := by
  obtain ⟨sound', -, hkeeps, -⟩ := insert_spec sound word
  by_contra hlt
  obtain ⟨u, hu⟩ := sound.exists_find? (Nat.not_le.mp hlt)
  rw [sound'.find?_injective hw (hkeeps u x hu), hu] at hnew
  contradiction

/-- The node that is given is that of the string alone. -/
theorem snd_insert_eq_iff (sound : t.Sound) {word w : List Char} {x : Nat}
    (hw : (t.insert word).1.find? w = some x) : (t.insert word).2 = x ↔ w = word := by
  obtain ⟨sound', hword, -, -⟩ := insert_spec sound word
  constructor
  · intro h
    exact sound'.find?_injective hw (h ▸ hword)
  · intro h
    rw [h, hword] at hw
    exact Option.some.inj hw

theorem insertAll_spec (sound : t.Sound) (words : List (List Char)) :
    (words.foldl (fun t w => (t.insert w).1) t).Sound ∧
      ∀ u, ((words.foldl (fun t w => (t.insert w).1) t).find? u).isSome ↔
        (t.find? u).isSome ∨ ∃ w ∈ words, u <+: w := by
  induction words generalizing t with
  | nil => simp [sound]
  | cons w words ih =>
    obtain ⟨hsound, -, -, hmem⟩ := insert_spec sound w
    obtain ⟨hsound', hmem'⟩ := ih hsound
    refine ⟨hsound', fun u => ?_⟩
    rw [List.foldl_cons, hmem', hmem, or_assoc, List.exists_mem_cons_iff]

/-- Later insertions keep the nodes of strings. -/
theorem find?_insertAll (sound : t.Sound) (words : List (List Char)) {p : List Char} {x : Nat}
    (h : t.find? p = some x) :
    (words.foldl (fun t w => (t.insert w).1) t).find? p = some x := by
  induction words generalizing t with
  | nil => exact h
  | cons w words ih =>
    obtain ⟨sound', -, hkeeps, -⟩ := insert_spec sound w
    exact ih sound' (hkeeps p x h)

theorem sound_ofWords (words : List (List Char)) : (ofWords words).Sound :=
  (insertAll_spec sound_empty words).1

/-- A trie of words holds their prefixes. -/
theorem find?_ofWords_isSome_iff {words : List (List Char)} {u : List Char} :
    ((ofWords words).find? u).isSome ↔ u = [] ∨ ∃ w ∈ words, u <+: w := by
  rw [ofWords, (insertAll_spec sound_empty words).2]
  refine or_congr_left ⟨fun h => ?_, fun h => by rw [h]; rfl⟩
  cases u with
  | nil => rfl
  | cons c u => simp [find?, walk?, child?, empty, root] at h

end TermScan.Trie
