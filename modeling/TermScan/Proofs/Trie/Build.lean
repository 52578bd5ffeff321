import Mathlib.Data.List.Infix
import Mathlib.Data.List.Nodup
import Mathlib.Data.List.Range
import TermScan.Proofs.Trie.Outputs
import TermScan.Trie.Build

/-!
# One pass links a trie

The pass reads links while it writes others. That it reads only those that are written is a matter
of the queue: its nodes come by depth, the last at most one deeper than the first, so whatever is
not deeper than the node that is taken has been linked before. Falling back ends since the strings
of the nodes get shorter.
-/
namespace TermScan.Trie

variable {t : Trie}

/-! Falling back -/

section Following

variable {failure : Array Nat} {c : Char}

/-- The loop ends at the longest suffix after which the trie goes on, and has met at most one node
for each length of a suffix. -/
theorem followWithin_eq (sound : t.Sound) (nodes : Nat) {w : List Char} {x : Nat}
    (linked : t.LinkedTo failure w.length) (hw : t.find? w = some x) (hnodes : w.length < nodes) :
    t.followWithin failure c nodes x =
      some (((w.tails.filterMap fun s => t.find? (s ++ [c])).head?).getD root) := by
  induction nodes generalizing w x with
  | zero => exact absurd hnodes (Nat.not_lt_zero _)
  | succ nodes ih =>
    have hstep : t.find? (w ++ [c]) = t.child? x c := by rw [find?_concat, hw, Option.bind_some]
    rw [followWithin]
    cases hchild : t.child? x c with
    | some y => rw [tails_eq_cons, List.filterMap_cons, hstep, hchild]; rfl
    | none =>
      dsimp only
      split_ifs with hroot
      · obtain rfl : w = [] := sound.find?_injective hw (by rw [hroot, find?_nil])
        rw [List.tails, List.filterMap_cons, hstep, hchild]
        rfl
      · obtain ⟨d, u, rfl⟩ := List.exists_cons_of_ne_nil (ne_nil_of_find? hw hroot)
        have hlength := (longest_suffix t u).length_le
        rw [List.length_cons] at hnodes linked
        have hshorter : t.LinkedTo failure (t.longest u).length :=
          fun w x hw hle => linked w x hw (by omega)
        rw [linked _ x hw le_rfl, List.tail_cons]
        dsimp only
        rw [ih hshorter (find?_longest t u) (by omega), ← filterMap_tails_longest,
          List.tails_cons, List.filterMap_cons, hstep, hchild]
        intro s hs
        rw [find?_concat, hs, Option.bind_none]

/-- Falling back from the longest suffix of a text leads to that of the longer text. -/
theorem followWithin_state (sound : t.Sound) {nodes : Nat} {u : List Char}
    (linked : t.LinkedTo failure (t.longest u).length) (hnodes : (t.longest u).length < nodes) :
    t.followWithin failure c nodes (t.state u) = some (t.state (u ++ [c])) := by
  rw [followWithin_eq sound nodes linked (find?_longest t u) hnodes, state_concat,
    ← filterMap_tails_longest]
  intro s hs
  rw [find?_concat, hs, Option.bind_none]

theorem state_lt (sound : t.Sound) (u : List Char) : t.state u < t.size :=
  (sound.find?_spec (find?_longest t u)).1

theorem length_longest_lt (sound : t.Sound) (u : List Char) : (t.longest u).length < t.size := by
  have hdepth := (sound.find?_spec (find?_longest t u)).2
  exact hdepth ▸ sound.depth_lt (state_lt sound u)

theorem transition?_state (sound : t.Sound) {u : List Char}
    (linked : t.LinkedTo failure (t.longest u).length) :
    t.transition? failure (t.state u) c = some (t.state (u ++ [c])) :=
  followWithin_state sound linked (length_longest_lt sound u)

/-- A text leads from the root to its longest suffix. -/
theorem foldlM_transition? (sound : t.Sound) (linked : ∀ length, t.LinkedTo failure length)
    (text : List Char) : text.foldlM (t.transition? failure) root = some (t.state text) := by
  induction text using List.reverseRecOn with
  | nil => rfl
  | append_singleton text c ih =>
    rw [List.foldlM_append, ih]
    simp [transition?_state sound (linked _)]

/-- The loop finds the state that a scan goes on with. -/
theorem transition?_ofTrie (sound : t.Sound) {x : Nat} (hx : x < t.size) (c : Char) :
    t.transition? (LinkedTrie.ofTrie t).failure x c = some ((LinkedTrie.ofTrie t).step x c) := by
  obtain ⟨w, hw⟩ := sound.exists_find? hx
  have linked : t.LinkedTo (LinkedTrie.ofTrie t).failure (t.longest w).length :=
    fun _ _ hw _ => failureLinks_eq sound hw
  rw [← state_of_find? hw, transition?_state sound linked, LinkedTrie.step_state sound]

end Following

/-! Listings -/

/-- The edges of every node, in some order. -/
def IsListing (t : Trie) (listing : Nat → List (Char × Nat)) : Prop :=
  ∀ x, (listing x).Perm (t.children x)

section Listing

variable {listing : Nat → List (Char × Nat)} {x y : Nat} {c : Char}

theorem mem_children_iff (sound : t.Sound) : (c, y) ∈ t.children x ↔ t.child? x c = some y := by
  have h := mem_edges_iff sound (x := x) (e := ⟨x, c, y⟩)
  simpa [edges] using h

theorem nodup_children (sound : t.Sound) (x : Nat) : (t.children x).Nodup := by
  rw [children]
  cases hnode : t.nodes[x]? with
  | none => exact List.nodup_nil
  | some node => exact (sound.valid x node hnode).1.of_map _

namespace IsListing

theorem mem_iff (listed : t.IsListing listing) (sound : t.Sound) :
    (c, y) ∈ listing x ↔ t.child? x c = some y :=
  (listed x).mem_iff.trans (mem_children_iff sound)

theorem mem_targets_iff (listed : t.IsListing listing) (sound : t.Sound) :
    y ∈ (listing x).map Prod.snd ↔ ∃ c, t.child? x c = some y := by
  simp [listed.mem_iff sound]

theorem nodup_targets (listed : t.IsListing listing) (sound : t.Sound) (x : Nat) :
    ((listing x).map Prod.snd).Nodup := by
  have hnodup : (listing x).Nodup := (listed x).nodup_iff.mpr (nodup_children sound x)
  refine hnodup.map_on fun e he e' he' heq => ?_
  have hchild := (listed.mem_iff sound).mp he
  have hchild' := (listed.mem_iff sound).mp he'
  obtain ⟨-, hkey⟩ := sound.unique x x e.1 e'.1 e.2 hchild (heq ▸ hchild')
  exact Prod.ext hkey heq

theorem depth_target (listed : t.IsListing listing) (sound : t.Sound)
    (hy : y ∈ (listing x).map Prod.snd) : t.depth y = t.depth x + 1 := by
  obtain ⟨c, hchild⟩ := (listed.mem_targets_iff sound).mp hy
  exact (sound.edge x c y hchild).2.2

end IsListing

end Listing

/-! The pass -/

namespace LinkPass

variable {listing : Nat → List (Char × Nat)} {accept : Nat → Bool} {p : LinkPass}

/-- One child is linked from its parent, if whatever is not deeper than the parent is linked. -/
theorem link_spec (sound : t.Sound) {x : Nat} (hx : x < t.size) (hroot : x ≠ root)
    (filled : t.FilledTo t.IsFailure p.failure (t.depth x))
    (told : t.FilledTo (t.IsOutput accept) p.output (t.depth x))
    {e : Char × Nat} (he : t.child? x e.1 = some e.2) :
    ∃ f nearest, t.IsFailure e.2 f ∧ t.IsOutput accept e.2 nearest ∧
      link t accept x p e = some { p with
        failure := p.failure.setIfInBounds e.2 f
        output := p.output.setIfInBounds e.2 nearest
        queue := p.queue ++ [e.2] } := by
  obtain ⟨u, hu⟩ := sound.exists_find? hx
  have hne : u ≠ [] := ne_nil_of_find? hu hroot
  have hdepth := (sound.find?_spec hu).2
  have hlength := length_longest_tail_le t u
  have linked := filled.linkedTo sound
  have hfollow : t.transition? p.failure (t.state u.tail) e.1 =
      some (t.state (u ++ [e.1]).tail) := by
    rw [transition?_state sound fun w x hw hle => linked w x hw (by omega),
      List.tail_append_of_ne_nil hne]
  have hshort : t.depth (t.state (u ++ [e.1]).tail) ≤ t.depth x := by
    have hle := length_longest_tail_le t (u ++ [e.1])
    rw [(sound.find?_spec (find?_longest t _)).2, hdepth]
    simpa using hle
  obtain ⟨nearest, hnearest, hisOutput⟩ := told.2 _ (state_lt sound _) hshort
  refine ⟨_, _, isFailure_child sound hu he, isOutput_child sound hne hu he hisOutput, ?_⟩
  rw [link, linked u x hu hdepth.ge]
  simp only [bind, Option.bind_some, hfollow, hnearest]
  rfl

/-- The children of a node are linked one after the other. -/
theorem foldlM_link_spec (sound : t.Sound) {x : Nat} (hx : x < t.size) (hroot : x ≠ root)
    (out : List (Char × Nat)) (hout : ∀ e ∈ out, t.child? x e.1 = some e.2)
    (filled : t.FilledTo t.IsFailure p.failure (t.depth x))
    (told : t.FilledTo (t.IsOutput accept) p.output (t.depth x)) :
    ∃ failure output, Grown t.IsFailure p.failure failure (out.map Prod.snd) ∧
      Grown (t.IsOutput accept) p.output output (out.map Prod.snd) ∧
      out.foldlM (link t accept x) p =
        some { p with failure, output, queue := p.queue ++ out.map Prod.snd } := by
  induction out generalizing p with
  | nil =>
    refine ⟨p.failure, p.output, .refl _, .refl _, ?_⟩
    rw [List.map_nil, List.append_nil]
    rfl
  | cons e out ih =>
    rw [List.forall_mem_cons] at hout
    obtain ⟨he, hout⟩ := hout
    have htarget : e.2 < t.size := (sound.edge _ _ _ he).2.1
    obtain ⟨f, nearest, hf, hnearest, hlink⟩ := link_spec sound hx hroot filled told he
    obtain ⟨failure, output, hfailure, houtput, hfold⟩ :=
      ih (p := { p with
          failure := p.failure.setIfInBounds e.2 f
          output := p.output.setIfInBounds e.2 nearest
          queue := p.queue ++ [e.2] })
        hout (filled.set hf) (told.set hnearest)
    refine ⟨failure, output, .cons (filled.1 ▸ htarget) hf hfailure,
      .cons (told.1 ▸ htarget) hnearest houtput, ?_⟩
    rw [List.foldlM_cons, hlink]
    simpa using hfold

/-- What stands between two nodes of the pass: the nodes met are those below the ones taken, all of
them are linked, and they come by depth. -/
structure Standing (t : Trie) (accept : Nat → Bool) (p : LinkPass) : Prop where
  size : p.failure.size = t.size
  output_size : p.output.size = t.size
  linked : ∀ x, x = root ∨ x ∈ p.order ++ p.queue →
    EntryAt t.IsFailure p.failure x ∧ EntryAt (t.IsOutput accept) p.output x
  met : ∀ y, y ∈ p.order ++ p.queue ↔ ∃ x c, (x = root ∨ x ∈ p.order) ∧ t.child? x c = some y
  nodup : (p.order ++ p.queue).Nodup
  sorted : (p.order ++ p.queue).Pairwise fun x y => t.depth x ≤ t.depth y
  near : ∀ x ∈ p.queue, ∀ y ∈ p.queue, t.depth y ≤ t.depth x + 1

namespace Standing

variable {x : Nat} {queue : List Nat}

theorem lt_size (standing : p.Standing t accept) (sound : t.Sound) (hx : x ∈ p.order ++ p.queue) :
    x < t.size ∧ x ≠ root := by
  obtain ⟨y, c, -, hchild⟩ := (standing.met x).mp hx
  obtain ⟨hlt, hsize, -⟩ := sound.edge y c x hchild
  exact ⟨hsize, (Nat.zero_le y).trans_lt hlt |>.ne'⟩

theorem depth_le_of_mem_queue (standing : p.Standing t accept) (hqueue : p.queue = x :: queue)
    {y : Nat} (hy : y ∈ p.queue) : t.depth x ≤ t.depth y := by
  have hsorted := (List.pairwise_append.mp standing.sorted).2.1
  rw [hqueue] at hsorted hy
  rcases List.mem_cons.mp hy with rfl | hy
  · exact le_rfl
  · exact List.rel_of_pairwise_cons hsorted hy

theorem depth_le_succ (standing : p.Standing t accept) (hqueue : p.queue = x :: queue) {y : Nat}
    (hy : y ∈ p.order ++ p.queue) : t.depth y ≤ t.depth x + 1 := by
  have hx : x ∈ p.queue := by simp [hqueue]
  rcases List.mem_append.mp hy with hy | hy
  · have := (List.pairwise_append.mp standing.sorted).2.2 y hy x hx
    omega
  · exact standing.near x hx y hy

/-- What is not deeper than the first in the queue has been met. -/
theorem mem_of_depth_le (standing : p.Standing t accept) (sound : t.Sound)
    (hqueue : p.queue = x :: queue) {y : Nat} (hy : y < t.size)
    (hle : t.depth y ≤ t.depth x) : y = root ∨ y ∈ p.order ++ p.queue := by
  refine sound.node_induction
    (motive := fun y => t.depth y ≤ t.depth x → y = root ∨ y ∈ p.order ++ p.queue)
    (fun _ => .inl rfl) (fun z c y hchild ih hle => ?_) hy hle
  obtain ⟨-, -, hdepth⟩ := sound.edge z c y hchild
  -- the parent is less deep than the first in the queue, so it is not in the queue
  have htaken : z = root ∨ z ∈ p.order := by
    refine (ih (by omega)).imp_right fun hz => (List.mem_append.mp hz).resolve_right fun hz => ?_
    have := standing.depth_le_of_mem_queue hqueue hz
    omega
  exact .inr ((standing.met y).mpr ⟨z, c, htaken, hchild⟩)

theorem filledTo (standing : p.Standing t accept) (sound : t.Sound)
    (hqueue : p.queue = x :: queue) :
    t.FilledTo t.IsFailure p.failure (t.depth x) ∧
      t.FilledTo (t.IsOutput accept) p.output (t.depth x) := by
  have hlinked (y : Nat) (hy : y < t.size) (hle : t.depth y ≤ t.depth x) :=
    standing.linked y (standing.mem_of_depth_le sound hqueue hy hle)
  exact ⟨⟨standing.size, fun y hy hle => (hlinked y hy hle).1⟩,
    ⟨standing.output_size, fun y hy hle => (hlinked y hy hle).2⟩⟩

theorem length_order_lt (standing : p.Standing t accept) (sound : t.Sound)
    (hqueue : p.queue = x :: queue) : p.order.length < t.size := by
  have hsub : p.order ++ p.queue ⊆ List.range t.size := fun y hy =>
    List.mem_range.mpr (standing.lt_size sound hy).1
  have hle := (standing.nodup.subperm hsub).length_le
  rw [List.length_append, hqueue, List.length_cons, List.length_range] at hle
  omega

end Standing

theorem isFailure_of_depth_le_one (sound : t.Sound) {x : Nat} (h : t.depth x ≤ 1) :
    t.IsFailure x root := by
  intro w hw
  have hlength : w.tail = [] := by
    rw [← List.length_eq_zero_iff, List.length_tail, ← (sound.find?_spec hw).2]
    omega
  rw [hlength]
  rfl

theorem standing_start (listed : t.IsListing listing) (sound : t.Sound) :
    (start t listing).Standing t accept := by
  have hdepth (y : Nat) (hy : y ∈ (listing root).map Prod.snd) : t.depth y = 1 := by
    rw [listed.depth_target sound hy, sound.depth_root]
  have hentry (x : Nat) (hx : x < t.size) (hle : t.depth x ≤ 1) :
      EntryAt t.IsFailure (.replicate t.size root) x ∧
        EntryAt (t.IsOutput accept) (.replicate t.size none) x :=
    ⟨⟨root, by simp [hx], isFailure_of_depth_le_one sound hle⟩,
      ⟨none, by simp [hx], isOutput_of_depth_le_one sound hle⟩⟩
  refine ⟨Array.size_replicate, Array.size_replicate, ?_, ?_, ?_, ?_, ?_⟩
  · rintro x (rfl | hx)
    · exact hentry root sound.size_pos (by rw [sound.depth_root]; omega)
    · obtain ⟨c, hchild⟩ := (listed.mem_targets_iff sound).mp hx
      exact hentry x (sound.edge root c x hchild).2.1 (hdepth x hx).le
  · intro y
    rw [start, List.nil_append, listed.mem_targets_iff sound]
    simp
  · exact listed.nodup_targets sound root
  · exact List.pairwise_of_forall_mem_list fun x hx y hy => (hdepth x hx).le.trans (hdepth y hy).ge
  · intro x hx y hy
    rw [hdepth x hx, hdepth y hy]
    omega

/-- Taking a node keeps the standing. -/
theorem Standing.take {x : Nat} {queue : List Nat} (standing : p.Standing t accept)
    (listed : t.IsListing listing) (sound : t.Sound) (hqueue : p.queue = x :: queue) :
    ∃ p', p.take t listing accept x queue = some p' ∧ p'.Standing t accept ∧
      p'.order = p.order ++ [x] := by
  have hmem : x ∈ p.order ++ p.queue := by simp [hqueue]
  obtain ⟨hx, hroot⟩ := standing.lt_size sound hmem
  obtain ⟨filled, told⟩ := standing.filledTo sound hqueue
  obtain ⟨failure, output, hfailure, houtput, hfold⟩ :=
    foldlM_link_spec (p := { p with order := p.order ++ [x], queue }) sound hx hroot (listing x)
      (fun e he => (listed.mem_iff sound).mp he) filled told
  have hmet : (p.order ++ [x]) ++ (queue ++ (listing x).map Prod.snd) =
      (p.order ++ p.queue) ++ (listing x).map Prod.snd := by simp [hqueue]
  have htarget (y : Nat) (hy : y ∈ (listing x).map Prod.snd) : t.depth y = t.depth x + 1 :=
    listed.depth_target sound hy
  refine ⟨_, hfold, ⟨hfailure.size.trans standing.size, houtput.size.trans standing.output_size,
    ?_, ?_, ?_, ?_, ?_⟩, rfl⟩
  · rw [hmet]
    intro y hy
    rw [List.mem_append, ← or_assoc] at hy
    exact ⟨hfailure.entry y (hy.imp_left fun hy => (standing.linked y hy).1),
      houtput.entry y (hy.imp_left fun hy => (standing.linked y hy).2)⟩
  · intro y
    rw [hmet, List.mem_append, standing.met, listed.mem_targets_iff sound]
    constructor
    · rintro (⟨z, c, hz, hchild⟩ | ⟨c, hchild⟩)
      · exact ⟨z, c, hz.imp_right (List.mem_append_left _), hchild⟩
      · exact ⟨x, c, .inr (by simp), hchild⟩
    · rintro ⟨z, c, hz, hchild⟩
      rw [List.mem_append, List.mem_singleton, ← or_assoc] at hz
      rcases hz with hz | rfl
      · exact .inl ⟨z, c, hz, hchild⟩
      · exact .inr ⟨c, hchild⟩
  · rw [hmet]
    refine standing.nodup.append (listed.nodup_targets sound x) fun y hy hy' => ?_
    -- a child hangs on one node only, and `x` has not been taken before
    obtain ⟨z, c, hz, hchild⟩ := (standing.met y).mp hy
    obtain ⟨c', hchild'⟩ := (listed.mem_targets_iff sound).mp hy'
    obtain ⟨rfl, -⟩ := sound.unique z x c c' y hchild hchild'
    have hdisjoint := (List.nodup_append.mp standing.nodup).2.2
    exact hdisjoint z (hz.resolve_left hroot) z (by simp [hqueue]) rfl
  · rw [hmet]
    refine List.pairwise_append.mpr ⟨standing.sorted, ?_, fun y hy z hz => ?_⟩
    · exact List.pairwise_of_forall_mem_list fun y hy z hz =>
        (htarget y hy).le.trans (htarget z hz).ge
    · rw [htarget z hz]
      exact standing.depth_le_succ hqueue hy
  · intro y hy z hz
    have hlow : t.depth x ≤ t.depth y := by
      rcases List.mem_append.mp hy with hy | hy
      · exact standing.depth_le_of_mem_queue hqueue (by simp [hqueue, hy])
      · rw [htarget y hy]
        omega
    have hhigh : t.depth z ≤ t.depth x + 1 := by
      rcases List.mem_append.mp hz with hz | hz
      · exact standing.depth_le_succ hqueue (by simp [hqueue, hz])
      · exact (htarget z hz).le
    omega

/-- The pass ends with an empty queue. -/
theorem Standing.run (standing : p.Standing t accept) (listed : t.IsListing listing)
    (sound : t.Sound) {nodes : Nat} (hnodes : t.size ≤ p.order.length + nodes) :
    ∃ p', p.run t listing accept nodes = some p' ∧ p'.Standing t accept ∧ p'.queue = [] := by
  induction nodes generalizing p with
  | zero =>
    have hqueue : p.queue = [] := by
      cases hqueue : p.queue with
      | nil => rfl
      | cons x queue =>
        have := standing.length_order_lt sound hqueue
        omega
    exact ⟨p, by simp [LinkPass.run, hqueue], standing, hqueue⟩
  | succ nodes ih =>
    rw [LinkPass.run]
    cases hqueue : p.queue with
    | nil => exact ⟨p, rfl, standing, hqueue⟩
    | cons x queue =>
      obtain ⟨p', htake, standing', horder⟩ := standing.take listed sound hqueue
      dsimp only
      rw [htake]
      exact ih standing' (by rw [horder, List.length_append, List.length_singleton]; omega)

/-- In the end all nodes but the root have been taken. -/
theorem Standing.mem_order_iff (standing : p.Standing t accept) (sound : t.Sound)
    (hqueue : p.queue = []) {x : Nat} : x ∈ p.order ↔ x < t.size ∧ x ≠ root := by
  have horder : p.order ++ p.queue = p.order := by rw [hqueue, List.append_nil]
  constructor
  · exact fun hx => standing.lt_size sound (by rwa [horder])
  · rintro ⟨hx, hroot⟩
    have hmet : x = root ∨ x ∈ p.order := by
      refine sound.node_induction (motive := fun x => x = root ∨ x ∈ p.order) (.inl rfl)
        (fun y c x hchild hy => .inr ?_) hx
      rw [← horder, standing.met]
      exact ⟨y, c, hy, hchild⟩
    exact hmet.resolve_left hroot

/-- In the end both links of every node are right. -/
theorem Standing.links_eq (standing : p.Standing t accept) (sound : t.Sound)
    (hqueue : p.queue = []) {w : List Char} {x : Nat} (hw : t.find? w = some x) :
    p.failure[x]? = some (t.state w.tail) ∧
      p.output[x]? = some (t.markedBelow (t.chained accept w) w).head? := by
  have hmem : x = root ∨ x ∈ p.order ++ p.queue := by
    rw [hqueue, List.append_nil, standing.mem_order_iff sound hqueue]
    exact (eq_or_ne x root).imp_right fun hroot => ⟨(sound.find?_spec hw).1, hroot⟩
  obtain ⟨⟨f, hf, hfailure⟩, nearest, hnearest, houtput⟩ := standing.linked x hmem
  exact ⟨by rw [hf, hfailure w hw], by rw [hnearest, houtput w hw]⟩

end LinkPass

/-- The pass over a sound trie succeeds. -/
theorem buildLinks_spec {listing : Nat → List (Char × Nat)} (listed : t.IsListing listing)
    (sound : t.Sound) (accept : Nat → Bool) :
    ∃ p, t.buildLinks listing accept = some p ∧ p.Standing t accept ∧ p.queue = [] :=
  (LinkPass.standing_start listed sound).run listed sound (Nat.le_add_left _ _)

/-! What the links say -/

/-- Among some strings a longest one that the trie holds. -/
structure IsLongest (t : Trie) (among : List Char → Prop) (s : List Char) : Prop where
  mem : among s
  held : (t.find? s).isSome
  length_le : ∀ r, among r → (t.find? r).isSome → r.length ≤ s.length

theorem isLongest_longest (t : Trie) (u : List Char) : t.IsLongest (· <:+ u) (t.longest u) where
  mem := longest_suffix t u
  held := by rw [find?_longest]; rfl
  length_le _ hr hheld := (suffix_longest hr hheld).length_le

theorem size_failureLinks (t : Trie) : t.failureLinks.size = t.size := by
  have hfill (update : Array Nat → Edge → Nat) (out : List Edge) (table : Array Nat) :
      (out.foldl (fill update) table).size = table.size := by
    induction out generalizing table with
    | nil => rfl
    | cons e out ih => rw [List.foldl_cons, ih, fill, Array.size_setIfInBounds]
  exact (hfill _ t.breadthFirst _).trans Array.size_replicate

/-- What a finished pass says about the trie. -/
structure LinkPass.Exact (t : Trie) (p : LinkPass) : Prop where
  /-- Every node but the root is linked to the longest proper suffix of its string. -/
  failure : ∀ x < t.size, ∃ w f, t.find? w = some x ∧ p.failure[x]? = some f ∧
    (w = [] ∧ f = root ∨ ∃ s, t.find? s = some f ∧ t.IsLongest (fun s => s <:+ w ∧ s ≠ w) s)
  /-- A text leads to its longest suffix. -/
  reading : ∀ text : List Char, ∃ s x, text.foldlM (t.transition? p.failure) root = some x ∧
    t.find? s = some x ∧ t.IsLongest (· <:+ text) s
  /-- Falling back ends, from every node and for every character. It meets no more nodes than the
  string of the node has suffixes. -/
  falling : ∀ x < t.size, ∀ c, ∃ y < t.size, ∀ nodes, t.depth x < nodes →
    t.followWithin p.failure c nodes x = some y
  mem_order : ∀ x, x ∈ p.order ↔ x < t.size ∧ x ≠ root
  nodup_order : p.order.Nodup
  sorted_order : p.order.Pairwise fun x y => t.depth x ≤ t.depth y
  /-- The links do not depend on the listing. -/
  failure_eq : p.failure = (LinkedTrie.ofTrie t).failure

theorem LinkPass.Standing.exact {accept : Nat → Bool} {p : LinkPass}
    (standing : p.Standing t accept) (sound : t.Sound)
    (hqueue : p.queue = []) : p.Exact t := by
  have horder : p.order ++ p.queue = p.order := by rw [hqueue, List.append_nil]
  have hlink (w : List Char) (x : Nat) (hw : t.find? w = some x) :=
    (standing.links_eq sound hqueue hw).1
  have linked (length : Nat) : t.LinkedTo p.failure length := fun w x hw _ => hlink w x hw
  refine ⟨fun x hx => ?_, fun text => ?_, fun x hx c => ?_, fun x => ?_, ?_, ?_, ?_⟩
  · obtain ⟨w, hw⟩ := sound.exists_find? hx
    refine ⟨w, _, hw, hlink w x hw, ?_⟩
    by_cases hnil : w = []
    · subst hnil
      exact .inl ⟨rfl, rfl⟩
    · refine .inr ⟨_, find?_longest t w.tail, ?_⟩
      obtain ⟨hmem, hheld, hle⟩ := isLongest_longest t w.tail
      have hproper (s : List Char) := suffix_tail_iff (s := s) hnil
      exact ⟨(hproper _).mp hmem, hheld, fun r hr => hle r ((hproper r).mpr hr)⟩
  · exact ⟨_, _, foldlM_transition? sound linked text, find?_longest t text,
      isLongest_longest t text⟩
  · obtain ⟨w, hw⟩ := sound.exists_find? hx
    refine ⟨_, state_lt sound (w ++ [c]), fun nodes hnodes => ?_⟩
    rw [(sound.find?_spec hw).2] at hnodes
    rw [← state_of_find? hw]
    exact followWithin_state sound (linked _) ((longest_suffix t w).length_le.trans_lt hnodes)
  · exact standing.mem_order_iff sound hqueue
  · exact horder ▸ standing.nodup
  · exact horder ▸ standing.sorted
  · refine Array.ext_getElem? fun x => ?_
    by_cases hx : x < t.size
    · obtain ⟨w, hw⟩ := sound.exists_find? hx
      exact (hlink w x hw).trans (failureLinks_eq sound hw).symm
    · rw [Array.getElem?_eq_none (standing.size ▸ Nat.le_of_not_lt hx)]
      exact (Array.getElem?_eq_none (size_failureLinks t ▸ Nat.le_of_not_lt hx)).symm

/-- The pass over a trie of words ends, whatever the order in which it reads edges, and its links
are those of the longest suffixes. -/
theorem states_exact (words : List (List Char)) (accept : Nat → Bool)
    {listing : Nat → List (Char × Nat)} (listed : (ofWords words).IsListing listing) :
    ∃ p, (ofWords words).buildLinks listing accept = some p ∧ p.Exact (ofWords words) := by
  obtain ⟨p, hbuild, standing, hqueue⟩ := buildLinks_spec listed (sound_ofWords words) accept
  exact ⟨p, hbuild, standing.exact (sound_ofWords words) hqueue⟩

theorem states_exact_sample :
    let t := ofWords ["he".toList, "she".toList, "hers".toList]
    ∃ p, t.buildLinks (fun x => (t.children x).reverse) (fun x => x == 2) = some p ∧
      p.Exact t ∧ p.failure = #[0, 0, 0, 0, 1, 2, 0, 3] := by
  intro t
  obtain ⟨p, hbuild, exact⟩ := states_exact ["he".toList, "she".toList, "hers".toList]
    (fun x => x == 2) (fun x => List.reverse_perm (t.children x))
  exact ⟨p, hbuild, exact, exact.failure_eq.trans (by decide)⟩

end TermScan.Trie
