import TermScan.Interval.Arena
import TermScan.Proofs.Interval.Growth

/-!
# Trees in an arena

An arena holds a tree: the cells that can be reached from the root are its nodes, each of them at an
index of its own. What an operation does to the cells is what the like-named one does to the tree,
and it touches no cell outside the subtree that it works on. So no operation fails, no link leads in
a circle, and a walk through the arena ends and shows every interval that was added. A query goes
down one path, and its answer is that of a search through everything added.
-/
namespace TermScan

namespace IntervalTree

/-- The number of nodes on a longest way down. -/
def levels : IntervalTree → Nat
  | leaf => 0
  | node l _ r _ _ => max l.levels r.levels + 1

theorem levels_le_size (t : IntervalTree) : t.levels ≤ t.size := by
  induction t with
  | leaf => exact Nat.le_refl 0
  | node l x r _ _ ihl ihr =>
    rw [levels, size]
    omega

end IntervalTree

/-! Sides -/

namespace Side

/-- The node of a root, the subtree on a side and the one on the other side. -/
def node (side : Side) (outer : IntervalTree) (x : Interval) (inner : IntervalTree)
    (height maxUpper : Nat) : IntervalTree :=
  match side with
  | left => .node outer x inner height maxUpper
  | right => .node inner x outer height maxUpper

/-- The same node, annotated. -/
def join (side : Side) (outer : IntervalTree) (x : Interval) (inner : IntervalTree) :
    IntervalTree :=
  match side with
  | left => .join outer x inner
  | right => .join inner x outer

/-- The indices of such a node and of its subtrees, from left to right. -/
def row (side : Side) (outer : List Nat) (id : Nat) (inner : List Nat) : List Nat :=
  match side with
  | left => outer ++ id :: inner
  | right => inner ++ id :: outer

/-- The balanced tree of a root, the subtree on a side and the one on the other side. -/
def balance (side : Side) (outer : IntervalTree) (x : Interval) (inner : IntervalTree) :
    IntervalTree :=
  match side with
  | left => .balance outer x inner
  | right => .balance inner x outer

/-- Lifts the child on a side. -/
def lift : Side → IntervalTree → IntervalTree
  | left => IntervalTree.rotateRight
  | right => IntervalTree.rotateLeft

/-- The subtree on a side is the higher one. -/
def leans : Side → IntervalTree → Bool
  | left => IntervalTree.leansLeft
  | right => IntervalTree.leansRight

theorem lift_join (side : Side) (a b c : IntervalTree) (x y : Interval) (h m : Nat) :
    side.lift (side.join (side.node a x b h m) y c) = side.join a x (side.join b y c) := by
  cases side <;> rfl

theorem lift_node (side : Side) {outer : IntervalTree} (hleaf : outer ≠ .leaf)
    (inner : IntervalTree) (x : Interval) (h m : Nat) :
    side.lift (side.node outer x inner h m) = side.lift (side.join outer x inner) := by
  cases outer with
  | leaf => contradiction
  | node => cases side <;> rfl

theorem leans_node (side : Side) (outer inner : IntervalTree) (x : Interval) (h m : Nat) :
    side.leans (side.node outer x inner h m) = decide (inner.height < outer.height) := by
  cases side <;> rfl

theorem mem_row {side : Side} {outer inner : List Nat} {id j : Nat} :
    j ∈ side.row outer id inner ↔ j = id ∨ j ∈ outer ∨ j ∈ inner := by
  cases side <;> simp [row] <;> tauto

theorem nodup_row {side : Side} {outer inner : List Nat} {id : Nat} :
    (side.row outer id inner).Nodup ↔ id ∉ outer ∧ id ∉ inner ∧ outer.Nodup ∧ inner.Nodup ∧
      outer.Disjoint inner := by
  cases side with
  | left => simp [row, List.nodup_append']; tauto
  | right => simp [row, List.nodup_append', @List.disjoint_comm _ inner]; tauto

theorem row_row (side : Side) (as bs cs : List Nat) (pivot id : Nat) :
    side.row (side.row as pivot bs) id cs = side.row as pivot (side.row bs id cs) := by
  cases side <;> simp [row]

theorem perm_row (side : Side) {outer outer' inner : List Nat} {id new : Nat}
    (h : outer'.Perm (new :: outer)) :
    (side.row outer' id inner).Perm (new :: side.row outer id inner) := by
  cases side with
  | left => exact h.append_right (id :: inner)
  | right =>
    calc inner ++ id :: outer'
      _ |>.Perm (inner ++ id :: new :: outer) := (h.cons id).append_left inner
      _ |>.Perm (inner ++ new :: id :: outer) := (List.Perm.swap new id outer).append_left inner
      _ |>.Perm (new :: (inner ++ id :: outer)) := List.perm_middle

end Side

namespace Cell

theorem child_setChild (c : Cell) (side : Side) (link : Option Nat) :
    (c.setChild side link).child side = link := by cases side <;> rfl

theorem child_other_setChild (c : Cell) (side : Side) (link : Option Nat) :
    (c.setChild side link).child side.other = c.child side.other := by cases side <;> rfl

theorem child_setChild_other (c : Cell) (side : Side) (link : Option Nat) :
    (c.setChild side.other link).child side = c.child side := by cases side <;> rfl

@[simp] theorem interval_setChild (c : Cell) (side : Side) (link : Option Nat) :
    (c.setChild side link).interval = c.interval := by cases side <;> rfl

end Cell

namespace IntervalArena

variable {cells cells' cells'' : Array Cell} {ids ids' : List Nat}

/-! Changes -/

/-- Only the cells at the given indices have changed. -/
structure ChangesOnly (ids : List Nat) (cells cells' : Array Cell) : Prop where
  size_eq : cells'.size = cells.size
  same : ∀ j ∉ ids, cells'[j]? = cells[j]?

namespace ChangesOnly

theorem mono (h : ChangesOnly ids cells cells') (hsub : ∀ j ∈ ids, j ∈ ids') :
    ChangesOnly ids' cells cells' :=
  ⟨h.size_eq, fun j hj => h.same j fun hmem => hj (hsub j hmem)⟩

theorem trans (h : ChangesOnly ids cells cells') (h' : ChangesOnly ids cells' cells'') :
    ChangesOnly ids cells cells'' :=
  ⟨h'.size_eq.trans h.size_eq, fun j hj => (h'.same j hj).trans (h.same j hj)⟩

theorem refl (ids : List Nat) (cells : Array Cell) : ChangesOnly ids cells cells :=
  ⟨rfl, fun _ _ => rfl⟩

theorem modify {id : Nat} (hid : id ∈ ids) (cells : Array Cell) (f : Cell → Cell) :
    ChangesOnly ids cells (cells.modify id f) := by
  refine ⟨Array.size_modify, fun j hj => ?_⟩
  rw [Array.getElem?_modify, if_neg]
  rintro rfl
  exact hj hid

end ChangesOnly

theorem getElem?_modify_self {id : Nat} {cell : Cell} (h : cells[id]? = some cell)
    (f : Cell → Cell) : (cells.modify id f)[id]? = some (f cell) := by
  rw [Array.getElem?_modify, if_pos rfl, h, Option.map_some]

/-! What is held -/

/-- The subtree at a link is the given tree, and its nodes stand, from left to right, at the given
indices. -/
inductive Holds (cells : Array Cell) : Option Nat → IntervalTree → List Nat → Prop
  | leaf : Holds cells none .leaf []
  | node {id : Nat} {cell : Cell} {l r : IntervalTree} {ls rs : List Nat}
      (read : cells[id]? = some cell) (left : Holds cells cell.left l ls)
      (right : Holds cells cell.right r rs) :
      Holds cells (some id) (.node l cell.interval r cell.height cell.maxUpper) (ls ++ id :: rs)

namespace Holds

variable {link : Option Nat} {t : IntervalTree}

/-- What happens to other cells does not matter. -/
theorem congr (h : Holds cells link t ids) (same : ∀ j ∈ ids, cells'[j]? = cells[j]?) :
    Holds cells' link t ids := by
  induction h with
  | leaf => exact .leaf
  | node read _ _ ihl ihr =>
    rw [List.forall_mem_append, List.forall_mem_cons] at same
    obtain ⟨hleft, hid, hright⟩ := same
    exact .node (hid.trans read) (ihl hleft) (ihr hright)

theorem frame (h : Holds cells link t ids) (changes : ChangesOnly ids' cells cells')
    (apart : ids.Disjoint ids') : Holds cells' link t ids :=
  h.congr fun j hj => changes.same j fun hj' => apart hj hj'

theorem heightAt?_eq (h : Holds cells link t ids) : heightAt? cells link = some t.height := by
  cases h with
  | leaf => rfl
  | node read => simp [heightAt?, read, IntervalTree.height]

theorem maxUpperAt?_eq (h : Holds cells link t ids) :
    maxUpperAt? cells link = some t.maxUpper := by
  cases h with
  | leaf => rfl
  | node read => simp [maxUpperAt?, read, IntervalTree.maxUpper]

theorem reachesAt?_eq (h : Holds cells link t ids) (upper : Nat) :
    reachesAt? cells upper link = some (t.reaches upper) := by
  cases h with
  | leaf => rfl
  | node read => simp [reachesAt?, read, IntervalTree.reaches]

theorem ne_leaf {id : Nat} (h : Holds cells (some id) t ids) : t ≠ .leaf := by
  rintro rfl
  cases h

end Holds

/-- A node in its cell, with the subtrees on a side and on the other side. The annotations of the
cell need not be right. -/
structure Stem (cells : Array Cell) (side : Side) (id : Nat) (cell : Cell)
    (outer inner : IntervalTree) (os is : List Nat) : Prop where
  read : cells[id]? = some cell
  outer : Holds cells (cell.child side) outer os
  inner : Holds cells (cell.child side.other) inner is
  nodup : (side.row os id is).Nodup

variable {side : Side} {id : Nat} {cell : Cell} {outer inner : IntervalTree} {os is : List Nat}

/-- A link to a tree that is no leaf leads to its root. -/
theorem Holds.exists_stem {link : Option Nat} {t : IntervalTree} (h : Holds cells link t ids)
    (nodup : ids.Nodup) (hleaf : t ≠ .leaf) (side : Side) :
    ∃ id cell outer inner os is, link = some id ∧
      t = side.node outer cell.interval inner cell.height cell.maxUpper ∧
      ids = side.row os id is ∧ Stem cells side id cell outer inner os is := by
  cases h with
  | leaf => contradiction
  | node read left right =>
    cases side with
    | left => exact ⟨_, _, _, _, _, _, rfl, rfl, rfl, read, left, right, nodup⟩
    | right => exact ⟨_, _, _, _, _, _, rfl, rfl, rfl, read, right, left, nodup⟩

/-! Operations -/

theorem annotate?_spec (h : Stem cells side id cell outer inner os is) :
    ∃ cells', annotate? cells id = some cells' ∧ ChangesOnly [id] cells cells' ∧
      Holds cells' (some id) (side.join outer cell.interval inner) (side.row os id is) := by
  -- the annotations are computed from the left to the right, whatever the side
  have annotated (l r : IntervalTree) (ls rs : List Nat) (hl : Holds cells cell.left l ls)
      (hr : Holds cells cell.right r rs) (hls : id ∉ ls) (hrs : id ∉ rs) :
      ∃ cells', annotate? cells id = some cells' ∧ ChangesOnly [id] cells cells' ∧
        Holds cells' (some id) (.join l cell.interval r) (ls ++ id :: rs) := by
    let f : Cell → Cell := fun c =>
      { c with
        height := max l.height r.height + 1
        maxUpper := max cell.interval.upper (max l.maxUpper r.maxUpper) }
    have changes := ChangesOnly.modify (List.mem_singleton_self id) cells f
    refine ⟨cells.modify id f, ?_, changes, .node (getElem?_modify_self h.read f)
      (hl.frame changes (by simpa using hls)) (hr.frame changes (by simpa using hrs))⟩
    simp only [annotate?, h.read, hl.heightAt?_eq, hr.heightAt?_eq, hl.maxUpperAt?_eq,
      hr.maxUpperAt?_eq, Option.bind_eq_bind, Option.bind_some]
    rfl
  obtain ⟨hos, his, -⟩ := Side.nodup_row.mp h.nodup
  cases side with
  | left => exact annotated outer inner os is h.outer h.inner hos his
  | right => exact annotated inner outer is os h.inner h.outer his hos

/-- A node takes over a subtree on a side. -/
theorem stem_setChild (read : cells[id]? = some cell)
    (inside : Holds cells (cell.child side.other) inner is) {link : Option Nat}
    (outside : Holds cells link outer os) (nodup : (side.row os id is).Nodup) :
    Stem (cells.modify id fun c => c.setChild side link) side id (cell.setChild side link)
      outer inner os is := by
  obtain ⟨hos, his, -⟩ := Side.nodup_row.mp nodup
  have changes := ChangesOnly.modify (List.mem_singleton_self id) cells fun c =>
    c.setChild side link
  refine ⟨getElem?_modify_self read _, ?_, ?_, nodup⟩
  · rw [Cell.child_setChild]
    exact outside.frame changes (by simpa using hos)
  · rw [Cell.child_other_setChild]
    exact inside.frame changes (by simpa using his)

theorem Stem.frame (h : Stem cells side id cell outer inner os is)
    (changes : ChangesOnly ids' cells cells') (apart : (side.row os id is).Disjoint ids') :
    Stem cells' side id cell outer inner os is := by
  have away {j : Nat} (hj : j ∈ side.row os id is) : j ∉ ids' := fun hj' => apart hj hj'
  refine ⟨(changes.same id (away (Side.mem_row.mpr (.inl rfl)))).trans h.read,
    h.outer.frame changes fun j hj => away (Side.mem_row.mpr (.inr (.inl hj))),
    h.inner.frame changes fun j hj => away (Side.mem_row.mpr (.inr (.inr hj))), h.nodup⟩

/-- Lifting the child on a side does to the cells what it does to the tree. -/
theorem lift?_spec (h : Stem cells side id cell outer inner os is) (hleaf : outer ≠ .leaf) :
    ∃ cells' upper, lift? cells id side = some (cells', upper) ∧
      ChangesOnly (side.row os id is) cells cells' ∧
      Holds cells' (some upper) (side.lift (side.join outer cell.interval inner))
        (side.row os id is) := by
  obtain ⟨hos, his, hnodup, -, hdisjoint⟩ := Side.nodup_row.mp h.nodup
  obtain ⟨pivot, below, a, b, as, bs, hlink, rfl, rfl, stem⟩ :=
    h.outer.exists_stem hnodup hleaf side
  have hrow := h.nodup
  rw [Side.row_row] at hrow ⊢
  obtain ⟨has, hpivot, -, hlower, hapart⟩ := Side.nodup_row.mp hrow
  have hid : id ∉ as := fun hmem => hapart hmem (Side.mem_row.mpr (.inl rfl))
  have hne : pivot ≠ id := fun heq => hpivot (Side.mem_row.mpr (.inl heq))
  -- the node takes over the inner subtree of its child
  let cells₁ := cells.modify id fun c => c.setChild side (below.child side.other)
  have h₁ : ChangesOnly [id] cells cells₁ := .modify (by simp) cells _
  have hread₁ : cells₁[pivot]? = some below := (h₁.same pivot (by simpa using hne)).trans stem.read
  -- the child takes the node in its place
  let cells₂ := cells₁.modify pivot fun c => c.setChild side.other (some id)
  have h₂ : ChangesOnly [pivot] cells₁ cells₂ := .modify (by simp) cells₁ _
  have hread₂ := getElem?_modify_self hread₁ fun c => c.setChild side.other (some id)
  have lower : Stem cells₂ side id (cell.setChild side (below.child side.other)) b inner bs is :=
    (stem_setChild h.read h.inner stem.inner hlower).frame h₂ (by simpa using hpivot)
  obtain ⟨cells₃, hcells₃, h₃, hlowered⟩ := annotate?_spec lower
  have changes : ChangesOnly [id, pivot] cells cells₃ :=
    ((h₁.mono (by simp)).trans (h₂.mono (by simp))).trans (h₃.mono (by simp))
  have upper : Stem cells₃ side pivot (below.setChild side.other (some id)) a
      (side.join b cell.interval inner) as (side.row bs id is) := by
    refine ⟨(h₃.same pivot (by simpa using hne)).trans hread₂, ?_, ?_, hrow⟩
    · rw [Cell.child_setChild_other]
      exact stem.outer.frame changes (by simp [hid, has])
    · rw [Cell.child_setChild]
      rwa [Cell.interval_setChild] at hlowered
  obtain ⟨cells₄, hcells₄, h₄, hlifted⟩ := annotate?_spec upper
  refine ⟨cells₄, pivot, ?_, ?_, ?_⟩
  · simp only [lift?, h.read, hlink, stem.read, Option.bind_eq_bind, Option.bind_some]
    rw [hcells₃, Option.bind_some, hcells₄]
    rfl
  · have hmem : ∀ j ∈ [id, pivot], j ∈ side.row as pivot (side.row bs id is) := by
      simp [Side.mem_row]
    exact (changes.mono hmem).trans (h₄.mono (by simp [Side.mem_row]))
  · rw [Side.lift_join]
    rwa [Cell.interval_setChild] at hlifted

/-- Lifting the child on the higher side does so as well. -/
theorem liftHigher?_spec (h : Stem cells side id cell outer inner os is) (hleaf : outer ≠ .leaf) :
    ∃ cells' upper, liftHigher? cells id side = some (cells', upper) ∧
      ChangesOnly (side.row os id is) cells cells' ∧
      Holds cells' (some upper)
        (side.lift (side.join (if side.other.leans outer then side.other.lift outer else outer)
          cell.interval inner)) (side.row os id is) := by
  obtain ⟨hos, his, hnodup, -, hdisjoint⟩ := Side.nodup_row.mp h.nodup
  obtain ⟨child, below, b, a, bs, as, hlink, rfl, rfl, stem⟩ :=
    h.outer.exists_stem hnodup hleaf side.other
  have hleans : leans? cells child side.other = some (side.other.leans
      (side.other.node b below.interval a below.height below.maxUpper)) := by
    rw [Side.leans_node]
    simp only [leans?, stem.read, Option.bind_eq_bind, Option.bind_some, stem.outer.heightAt?_eq,
      stem.inner.heightAt?_eq]
    rfl
  simp only [liftHigher?, h.read, hlink, hleans, Option.bind_eq_bind, Option.bind_some]
  cases hb : side.other.leans (side.other.node b below.interval a below.height below.maxUpper) with
  | false => exact lift?_spec h hleaf
  | true =>
    rw [Side.leans_node, decide_eq_true_eq] at hb
    have hb : b ≠ .leaf := by
      rintro rfl
      exact Nat.not_lt_zero _ hb
    obtain ⟨cells₁, upper, hcells₁, h₁, hlifted⟩ := lift?_spec stem hb
    have turned : Stem _ side id (cell.setChild side (some upper)) _ inner _ is :=
      stem_setChild ((h₁.same id hos).trans h.read)
        (h.inner.frame h₁ (List.disjoint_symm hdisjoint)) hlifted h.nodup
    obtain ⟨cells₂, upper', hcells₂, h₂, hlifted'⟩ := lift?_spec turned hlifted.ne_leaf
    refine ⟨cells₂, upper', ?_, ?_, ?_⟩
    · rw [if_pos rfl, hcells₁, Option.bind_some, hcells₂]
    · have hmodify : ChangesOnly (side.row (side.other.row bs child as) id is) cells₁
          (cells₁.modify id fun c => c.setChild side (some upper)) :=
        .modify (Side.mem_row.mpr (.inl rfl)) cells₁ _
      exact ((h₁.mono fun j hj => Side.mem_row.mpr (.inr (.inl hj))).trans hmodify).trans h₂
    · rw [if_pos rfl, Side.lift_node side.other hb]
      rwa [Cell.interval_setChild] at hlifted'

/-- Balancing a node does to the cells what it does to the tree. -/
theorem balance?_spec {l r : IntervalTree} {x : Interval}
    (h : Holds cells (some id) (.join l x r) ids) (nodup : ids.Nodup) :
    ∃ cells' upper, balance? cells id = some (cells', upper) ∧ ChangesOnly ids cells cells' ∧
      Holds cells' (some upper) (.balance l x r) ids := by
  obtain ⟨ls, rs, cell, rfl, rfl, read, hl, hr⟩ :
      ∃ ls rs cell, ids = ls ++ id :: rs ∧ x = cell.interval ∧ cells[id]? = some cell ∧
        Holds cells cell.left l ls ∧ Holds cells cell.right r rs := by
    generalize ht : IntervalTree.join l x r = t at h
    cases h with
    | node read left right =>
      rw [IntervalTree.join, IntervalTree.node.injEq] at ht
      obtain ⟨rfl, rfl, rfl, -, -⟩ := ht
      exact ⟨_, _, _, rfl, rfl, read, left, right⟩
  have higher {a b : IntervalTree} (hlt : b.height + 1 < a.height) : a ≠ .leaf := by
    rintro rfl
    exact Nat.not_lt_zero _ hlt
  simp only [balance?, read, hl.heightAt?_eq, hr.heightAt?_eq, Option.bind_eq_bind,
    Option.bind_some, IntervalTree.balance]
  by_cases hleft : r.height + 1 < l.height
  · rw [if_pos hleft, if_pos hleft]
    have stem : Stem cells .left id cell l r ls rs := ⟨read, hl, hr, nodup⟩
    exact liftHigher?_spec stem (higher hleft)
  by_cases hright : l.height + 1 < r.height
  · rw [if_neg hleft, if_neg hleft, if_pos hright, if_pos hright]
    have stem : Stem cells .right id cell r l rs ls := ⟨read, hr, hl, nodup⟩
    exact liftHigher?_spec stem (higher hright)
  · rw [if_neg hleft, if_neg hleft, if_neg hright, if_neg hright]
    exact ⟨cells, id, rfl, .refl _ _, h⟩

/-- Where the subtree on a side has got one more node, the node above takes it over and is balanced
again. -/
theorem Stem.takeOver {new child : Nat} {outer' : IntervalTree} {os' : List Nat}
    (h : Stem cells side id cell outer inner os is) (changes : ChangesOnly (new :: os) cells cells')
    (grown : Holds cells' (some child) outer' os') (perm : os'.Perm (new :: os))
    (hnew : new ∉ side.row os id is) :
    ∃ cells'' upper,
      ((annotate? (cells'.modify id fun c => c.setChild side (some child)) id).bind fun cells =>
        balance? cells id) = some (cells'', upper) ∧
      ChangesOnly (new :: side.row os id is) cells cells'' ∧
      Holds cells'' (some upper) (side.balance outer' cell.interval inner)
        (side.row os' id is) := by
  obtain ⟨hos, his, hnodup, -, hdisjoint⟩ := Side.nodup_row.mp h.nodup
  rw [Side.mem_row, not_or, not_or] at hnew
  obtain ⟨hid, hnewos, hnewis⟩ := hnew
  have hperm : (side.row os' id is).Perm (new :: side.row os id is) := side.perm_row perm
  have nodup : (side.row os' id is).Nodup :=
    hperm.nodup_iff.mpr (List.nodup_cons.mpr ⟨by simp [Side.mem_row, *], h.nodup⟩)
  have kept : cells'[id]? = some cell :=
    (changes.same id (by simp [hos, Ne.symm hid])).trans h.read
  have inside := h.inner.frame changes
    (List.disjoint_cons_right.mpr ⟨hnewis, List.disjoint_symm hdisjoint⟩)
  obtain ⟨cells₁, hcells₁, h₁, joined⟩ := annotate?_spec (stem_setChild kept inside grown nodup)
  rw [Cell.interval_setChild] at joined
  have balanced : ∃ cells'' upper, balance? cells₁ id = some (cells'', upper) ∧
      ChangesOnly (side.row os' id is) cells₁ cells'' ∧
      Holds cells'' (some upper) (side.balance outer' cell.interval inner)
        (side.row os' id is) := by
    cases side with
    | left => exact balance?_spec joined nodup
    | right => exact balance?_spec joined nodup
  obtain ⟨cells₂, upper, hcells₂, h₂, hbalanced⟩ := balanced
  refine ⟨cells₂, upper, ?_, ?_, hbalanced⟩
  · rw [hcells₁, Option.bind_some, hcells₂]
  · have changed : ChangesOnly [id] cells' cells₁ := (ChangesOnly.modify (by simp) _ _).trans h₁
    refine ((changes.mono ?_).trans (changed.mono ?_)).trans (h₂.mono ?_)
    · simp +contextual [Side.mem_row]
    · simp [Side.mem_row]
    · exact fun j hj => hperm.mem_iff.mp hj

/-- An insertion does to the cells what it does to the tree. It goes down no farther than the tree
does. -/
theorem insertAt?_spec {link : Option Nat} {t : IntervalTree} {new : Nat} {x : Interval}
    (h : Holds cells link t ids) (nodup : ids.Nodup) (read : cells[new]? = some (.single x))
    (hnew : new ∉ ids) :
    ∃ cells' root ids',
      (∀ depth, t.levels ≤ depth → insertAt? cells new depth link = some (cells', root)) ∧
      ChangesOnly (new :: ids) cells cells' ∧ Holds cells' (some root) (t.insert x) ids' ∧
      ids'.Perm (new :: ids) := by
  induction h with
  | leaf =>
    refine ⟨cells, new, [new], fun _ _ => by rw [insertAt?], .refl _ _, ?_, .rfl⟩
    have single := Holds.node read .leaf .leaf
    simpa [Cell.single, IntervalTree.insert, IntervalTree.join, IntervalTree.height,
      IntervalTree.maxUpper] using single
  | @node id cell l r ls rs root left right ihl ihr =>
    have onLeft : Stem cells .left id cell l r ls rs := ⟨root, left, right, nodup⟩
    have onRight : Stem cells .right id cell r l rs ls := ⟨root, right, left, nodup⟩
    obtain ⟨-, -, hnodupl, hnodupr, -⟩ := Side.nodup_row.mp onLeft.nodup
    have hmem := hnew
    rw [List.mem_append, List.mem_cons, not_or, not_or] at hmem
    have deeper {depth : Nat} (hdepth : (IntervalTree.node l cell.interval r cell.height
        cell.maxUpper).levels ≤ depth) : ∃ d, depth = d + 1 ∧ l.levels ≤ d ∧ r.levels ≤ d := by
      rw [IntervalTree.levels] at hdepth
      exact ⟨depth - 1, by omega, by omega, by omega⟩
    rw [IntervalTree.insert]
    by_cases hlt : x.lower < cell.interval.lower
    · obtain ⟨cells₁, child, ids₁, hcells₁, h₁, grown, perm⟩ := ihl hnodupl hmem.1
      obtain ⟨cells₂, top, hcells₂, h₂, inserted⟩ := onLeft.takeOver h₁ grown perm hnew
      rw [if_pos hlt]
      refine ⟨cells₂, top, _, fun depth hdepth => ?_, h₂, inserted, Side.perm_row .left perm⟩
      obtain ⟨d, rfl, hd, -⟩ := deeper hdepth
      simp only [insertAt?, root, read, Option.bind_eq_bind, Option.bind_some, Cell.single]
      rw [if_pos hlt]
      exact (congrArg (Option.bind · _) (hcells₁ d hd)).trans hcells₂
    · obtain ⟨cells₁, child, ids₁, hcells₁, h₁, grown, perm⟩ := ihr hnodupr hmem.2.2
      obtain ⟨cells₂, top, hcells₂, h₂, inserted⟩ := onRight.takeOver h₁ grown perm hnew
      rw [if_neg hlt]
      refine ⟨cells₂, top, _, fun depth hdepth => ?_, h₂, inserted, Side.perm_row .right perm⟩
      obtain ⟨d, rfl, -, hd⟩ := deeper hdepth
      simp only [insertAt?, root, read, Option.bind_eq_bind, Option.bind_some, Cell.single]
      rw [if_neg hlt]
      exact (congrArg (Option.bind · _) (hcells₁ d hd)).trans hcells₂

/-- A query is answered from the cells as from the tree, and follows no path that is longer than the
tree is high. -/
theorem Holds.containsWithin?_eq {link : Option Nat} {t : IntervalTree} (h : Holds cells link t ids)
    (query : Interval) {depth : Nat} (hdepth : t.levels ≤ depth) :
    containsWithin? cells query depth link = some (t.anyContains query) := by
  induction h generalizing depth with
  | leaf => rw [containsWithin?, IntervalTree.anyContains]
  | @node id cell l r ls rs read left right ihl ihr =>
    rw [IntervalTree.levels] at hdepth
    obtain ⟨depth, rfl⟩ := Nat.exists_eq_add_one_of_ne_zero (show depth ≠ 0 by omega)
    have hleft := ihl (show l.levels ≤ depth by omega)
    have hright := ihr (show r.levels ≤ depth by omega)
    rw [containsWithin?, IntervalTree.anyContains]
    simp only [read, left.reachesAt?_eq, hleft, hright, Option.bind_eq_bind, Option.bind_some,
      pure]
    by_cases hupper : cell.maxUpper < query.upper
    · rw [if_pos hupper, if_pos hupper]
    by_cases hlower : query.lower < cell.interval.lower
    · rw [if_neg hupper, if_neg hupper, if_pos hlower, if_pos hlower]
    · rw [if_neg hupper, if_neg hupper, if_neg hlower, if_neg hlower]
      cases l.reaches query.upper with
      | true => rfl
      | false => by_cases hend : query.upper ≤ cell.interval.upper <;> simp [hend]

theorem Holds.length_eq {link : Option Nat} {t : IntervalTree} (h : Holds cells link t ids) :
    ids.length = t.size := by
  induction h with
  | leaf => rfl
  | node _ _ _ ihl ihr =>
    rw [List.length_append, List.length_cons, IntervalTree.size, ihl, ihr]
    omega

/-- A walk shows the intervals of the subtree that it stands at, and goes on with its stack. It
takes two steps for each node. -/
theorem Holds.walk?_eq {link : Option Nat} {t : IntervalTree} (h : Holds cells link t ids)
    (steps : Nat) (stack : List Nat) (seen : Array Interval) :
    walk? cells (steps + 2 * ids.length) stack link seen =
      walk? cells steps stack none (seen ++ t.toList.toArray) := by
  induction h generalizing steps stack seen with
  | leaf => rw [IntervalTree.toList, Array.append_empty]; rfl
  | @node id cell l r ls rs read left right ihl ihr =>
    have hsteps : steps + 2 * (ls ++ id :: rs).length =
        steps + 2 * rs.length + 1 + 2 * ls.length + 1 := by
      rw [List.length_append, List.length_cons]
      omega
    calc walk? cells (steps + 2 * (ls ++ id :: rs).length) stack (some id) seen
      _ = walk? cells (steps + 2 * rs.length + 1 + 2 * ls.length) (id :: stack) cell.left seen := by
        rw [hsteps, walk?, read]
        rfl
      _ = walk? cells (steps + 2 * rs.length + 1) (id :: stack) none
          (seen ++ l.toList.toArray) := ihl _ _ _
      _ = walk? cells (steps + 2 * rs.length) stack cell.right
          ((seen ++ l.toList.toArray).push cell.interval) := by
        rw [walk?, read]
        rfl
      _ = walk? cells steps stack none
          ((seen ++ l.toList.toArray).push cell.interval ++ r.toList.toArray) := ihr _ _ _
      _ = _ := by
        congr 1
        simp [IntervalTree.toList]

/-- The tree that an arena holds. Each of its cells is one node of this tree. -/
def Represents (a : IntervalArena) (t : IntervalTree) : Prop :=
  ∃ ids, Holds a.cells a.root t ids ∧ ids.Perm (.range a.size)

namespace Represents

variable {a : IntervalArena} {t : IntervalTree}

theorem levels_le (h : a.Represents t) : t.levels ≤ a.size := by
  obtain ⟨ids, holds, perm⟩ := h
  rw [← List.length_range (n := a.size), ← perm.length_eq, holds.length_eq]
  exact t.levels_le_size

/-- However many more steps it may take, the walk ends after two for each node. -/
theorem listWithin?_eq (h : a.Represents t) {steps : Nat} (hsteps : 2 * a.size ≤ steps) :
    a.listWithin? steps = some t.toList := by
  obtain ⟨ids, holds, perm⟩ := h
  have hlength : ids.length = a.size := by rw [perm.length_eq, List.length_range]
  obtain ⟨more, rfl⟩ := Nat.exists_eq_add_of_le' hsteps
  rw [listWithin?, ← hlength, holds.walk?_eq, walk?]
  simp

theorem anyContains?_eq (h : a.Represents t) (query : Interval) :
    a.anyContains? query = some (t.anyContains query) := by
  have hlevels := h.levels_le
  obtain ⟨ids, holds, -⟩ := h
  exact holds.containsWithin?_eq query hlevels

/-- However much farther it may go down, an insertion goes no farther than the tree does. -/
theorem exists_insert (h : a.Represents t) (x : Interval) :
    ∃ cells root, a.insert? x = some ⟨cells, some root⟩ ∧
      (∀ depth, t.levels ≤ depth →
        insertAt? (a.cells.push (.single x)) a.size depth a.root = some (cells, root)) ∧
      cells.size = a.size + 1 ∧ Represents ⟨cells, some root⟩ (t.insert x) := by
  have hlevels := h.levels_le
  obtain ⟨ids, holds, perm⟩ := h
  have hnew : a.size ∉ ids := fun hmem => List.not_mem_range_self (perm.mem_iff.mp hmem)
  have pushed : Holds (a.cells.push (.single x)) a.root t ids := by
    refine holds.congr fun j hj => ?_
    have hlt : j < a.cells.size := List.mem_range.mp (perm.mem_iff.mp hj)
    rw [Array.getElem?_push, if_neg (Nat.ne_of_lt hlt)]
  obtain ⟨cells, root, ids', hcells, changes, inserted, perm'⟩ :=
    insertAt?_spec pushed (perm.nodup_iff.mpr List.nodup_range) Array.getElem?_push_size hnew
  have hsize : cells.size = a.size + 1 := changes.size_eq.trans (Array.size_push _)
  refine ⟨cells, root, ?_, hcells, hsize, ids', inserted, ?_⟩
  · rw [insert?, hcells a.cells.size hlevels]
    rfl
  · calc ids'
      _ |>.Perm (a.size :: ids) := perm'
      _ |>.Perm (a.size :: .range a.size) := perm.cons _
      _ |>.Perm (.range (a.size + 1)) := by
        rw [List.range_succ]
        exact List.perm_append_singleton _ _ |>.symm
      _ |>.Perm (.range cells.size) := by rw [hsize]

end Represents

theorem represents_empty : empty.Represents .leaf := ⟨[], .leaf, .rfl⟩

/-- Whatever is added to an arena in order, it holds the tree that is made so. -/
theorem ofList?_spec (items : List Interval) :
    ∃ a, ofList? items = some a ∧ a.size = items.length ∧
      a.Represents (items.foldl (fun t i => t.insert i) .leaf) := by
  induction items using List.reverseRecOn with
  | nil => exact ⟨empty, rfl, rfl, represents_empty⟩
  | append_singleton items x ih =>
    obtain ⟨a, ha, hsize, represents⟩ := ih
    obtain ⟨cells, root, ha', -, hsize', represents'⟩ := represents.exists_insert x
    refine ⟨⟨cells, some root⟩, ?_, ?_, ?_⟩
    · rw [ofList?] at ha ⊢
      rw [List.foldlM_append, ha]
      simpa using ha'
    · rw [size, hsize', hsize, List.length_append, List.length_singleton]
    · rwa [List.foldl_append]

end IntervalArena

/-! Everything that was added -/

namespace IntervalSet

/-- A set loses none of the intervals that are added to it. It shows them as they came while it
holds fewer than ten, and from then on sorted by lower bound, those with the same one as they came.
The arena that they make holds each of them in one cell, and the walk through it ends after two
steps for each cell, even if it might take more, and shows them in the latter order. -/
theorem listing_exact (additions : List Addition) :
    (grow additions).size = (added additions).length ∧
    (grow additions).toList =
      (if (grow additions).size < 10 then added additions else sortByLower (added additions)) ∧
    (∀ x, (grow additions).toList.count x = (added additions).count x) ∧
    (10 ≤ (grow additions).size →
      (grow additions).toList.Pairwise (fun x y => x.lower ≤ y.lower) ∧
      ∀ b, (grow additions).toList.filter (fun x => x.lower = b) =
        (added additions).filter fun x => x.lower = b) ∧
    ∃ arena, IntervalArena.ofList? (added additions) = some arena ∧
      arena.size = (added additions).length ∧
      arena.toList? = some (sortByLower (added additions)) ∧
      ∀ steps, 2 * arena.size ≤ steps →
        arena.listWithin? steps = some (sortByLower (added additions)) := by
  rw [grow_eq, size_insertAll_empty, toList_insertAll_empty]
  generalize added additions = items
  have hperm : (sortByLower items).Perm items := List.mergeSort_perm items _
  obtain ⟨arena, harena, hsize, represents⟩ := IntervalArena.ofList?_spec items
  have hlist {steps : Nat} (hsteps : 2 * arena.size ≤ steps) :
      arena.listWithin? steps = some (sortByLower items) := by
    rw [represents.listWithin?_eq hsteps, IntervalTree.toList_foldl_insert]
  refine ⟨rfl, rfl, fun x => ?_, fun hlarge => ?_, arena, harena, hsize, hlist le_rfl,
    fun _ => hlist⟩
  · split_ifs
    · rfl
    · exact hperm.count_eq x
  · rw [if_neg (show ¬items.length < treeThreshold from Nat.not_lt.mpr hlarge)]
    exact ⟨pairwise_sortByLower items, filter_sortByLower items⟩

/-- Whatever has been added to a set, and in whichever order, a query is contained if and only if
some interval added contains it. The set is a list as long as it holds fewer than ten intervals,
and the move into a tree changes no answer. The arena that the intervals make gives the same
answers. -/
theorem containment_exact (additions : List Addition) :
    (∀ query, (grow additions).anyContains query ↔
      ∃ x ∈ added additions, x.lower ≤ query.lower ∧ query.upper ≤ x.upper) ∧
    (grow additions).size = (added additions).length ∧
    ((grow additions).backing = .linear ↔ (grow additions).size < 10) ∧
    (∀ items x query,
      ((linear items).insert x).anyContains query = (linear (items ++ [x])).anyContains query) ∧
    ∃ arena, IntervalArena.ofList? (added additions) = some arena ∧
      ∀ query, arena.anyContains? query = some ((grow additions).anyContains query) := by
  obtain ⟨sound, hmem⟩ := insertAll_spec sound_empty (added additions)
  obtain ⟨arena, harena, -, represents⟩ := IntervalArena.ofList?_spec (added additions)
  have hanswer (query : Interval) : (empty.insertAll (added additions)).anyContains query ↔
      ∃ x ∈ added additions, x.contains query := by
    rw [anyContains_iff sound]
    simp [hmem]
  rw [grow_eq, size_insertAll_empty, backing_insertAll_empty]
  refine ⟨fun query => ?_, rfl, ?_, anyContains_insert_linear, arena, harena, fun query => ?_⟩
  · simp only [hanswer, IntervalTree.contains_iff]
  · change Backing.choose _ = _ ↔ _ < treeThreshold
    rw [Backing.choose]
    split_ifs with h <;> simp [h]
  · rw [represents.anyContains?_eq, anyContains_treeOf, Option.some_inj, Bool.eq_iff_iff, hanswer,
      List.any_eq_true]

end IntervalSet

end TermScan
