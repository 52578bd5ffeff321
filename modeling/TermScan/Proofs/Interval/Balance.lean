import Mathlib.Analysis.SpecialFunctions.Log.Base
import Mathlib.NumberTheory.Real.GoldenRatio
import TermScan.Proofs.Interval.Arena

/-!
# Interval trees stay balanced

An insertion makes a subtree higher by one at most, and a node above it that would then lean by two
is turned. So the heights of siblings never differ by more than one, and a tree has at least as many
nodes as a Fibonacci tree of its height. The way down that an insertion or a query takes is no
longer than the tree is high, which is logarithmic in the number of intervals.
-/
namespace TermScan

namespace IntervalTree

/-- The heights recorded for the two subtrees of a node differ by at most one. -/
def Balanced : IntervalTree → Prop
  | leaf => True
  | node l _ r _ _ =>
    l.height ≤ r.height + 1 ∧ r.height ≤ l.height + 1 ∧ l.Balanced ∧ r.Balanced

theorem Annotated.height_eq {l r : IntervalTree} {y : Interval} {height m : Nat}
    (h : (node l y r height m).Annotated) : height = max l.height r.height + 1 := by
  have hjoin := h.1
  simp only [join, node.injEq] at hjoin
  exact hjoin.2.2.2.1

/-- The height that is recorded is the true one. -/
theorem Annotated.levels_eq {t : IntervalTree} (h : t.Annotated) : t.levels = t.height := by
  induction t with
  | leaf => rfl
  | node l y r _ _ ihl ihr =>
    rw [levels, height, h.height_eq, ihl h.2.1, ihr h.2.2]

/-- The upper bound that is recorded at a node is the largest one below. -/
theorem Annotated.isGreatest {t : IntervalTree} (h : t.Annotated) (hleaf : t ≠ leaf) :
    IsGreatest {u | ∃ x ∈ t.toList, x.upper = u} t.maxUpper := by
  have bound {u : Nat} (hu : u ∈ {u | ∃ x ∈ t.toList, x.upper = u}) : u ≤ t.maxUpper := by
    obtain ⟨x, hx, rfl⟩ := hu
    exact le_maxUpper h hx
  have hreaches : t.reaches t.maxUpper := by
    cases t with
    | leaf => contradiction
    | node l y r height m => simp [reaches, maxUpper]
  obtain ⟨x, hx, hupper⟩ := (reaches_iff h).mp hreaches
  exact ⟨⟨x, hx, (bound ⟨x, hx, rfl⟩).antisymm hupper⟩, fun u hu => bound hu⟩

end IntervalTree

/-! Turning a node -/

namespace Side

variable {side : Side} {outer inner a b c d t : IntervalTree} {x y z : Interval}

theorem height_join : (side.join outer x inner).height = max outer.height inner.height + 1 := by
  cases side with
  | left => rfl
  | right => exact congrArg (· + 1) (Nat.max_comm _ _)

theorem balanced_join : (side.join outer x inner).Balanced ↔
    outer.height ≤ inner.height + 1 ∧ inner.height ≤ outer.height + 1 ∧ outer.Balanced ∧
      inner.Balanced := by
  cases side with
  | left => rfl
  | right => simp only [join, IntervalTree.join, IntervalTree.Balanced]; tauto

theorem exists_join (h : t.Annotated) (hpos : 0 < t.height) (side : Side) :
    ∃ outer x inner, t = side.join outer x inner ∧ outer.Annotated ∧ inner.Annotated := by
  cases t with
  | leaf => exact absurd hpos (Nat.lt_irrefl 0)
  | node l y r height m =>
    obtain ⟨hjoin, hl, hr⟩ := h
    cases side with
    | left => exact ⟨l, y, r, hjoin, hl, hr⟩
    | right => exact ⟨r, y, l, hjoin, hr, hl⟩

theorem leans_other_join :
    side.other.leans (side.join outer x inner) = decide (outer.height < inner.height) := by
  cases side <;> rfl

theorem lift_join_join : side.lift (side.join (side.join a x b) y c) =
    side.join a x (side.join b y c) := by
  cases side <;> rfl

theorem lift_other_join_join : side.other.lift (side.join a x (side.join b y c)) =
    side.join (side.join a x b) y c := by
  cases side <;> rfl

variable (side) in
/-- A node that leans by two is brought into balance, and its height falls by one or stays. -/
theorem lift_spec (annotated : outer.Annotated) (houter : outer.Balanced) (hinner : inner.Balanced)
    (hleans : outer.height = inner.height + 2) (x : Interval) :
    let t := side.lift
      (side.join (if side.other.leans outer then side.other.lift outer else outer) x inner)
    t.Balanced ∧ outer.height ≤ t.height ∧ t.height ≤ outer.height + 1 := by
  obtain ⟨a, y, b, rfl, ha, hb⟩ := exists_join annotated (by omega) side
  rw [balanced_join] at houter
  obtain ⟨hab, hba, balanceda, balancedb⟩ := houter
  rw [height_join] at hleans
  rw [leans_other_join]
  by_cases hlt : a.height < b.height
  · -- the inner grandchild becomes the root, and its subtrees are shared out
    obtain ⟨b, z, c, rfl, -, -⟩ := exists_join hb (by omega) side
    rw [balanced_join] at balancedb
    obtain ⟨hbc, hcb, balancedb, balancedc⟩ := balancedb
    rw [height_join] at hab hba hleans hlt
    simp only [height_join, hlt, decide_true, if_true, lift_other_join_join, lift_join_join,
      balanced_join]
    refine ⟨⟨?_, ?_, ⟨?_, ?_, balanceda, balancedb⟩, ?_, ?_, balancedc, hinner⟩, ?_, ?_⟩ <;> omega
  · simp only [hlt, decide_false, Bool.false_eq_true, if_false, lift_join_join, height_join,
      balanced_join]
    refine ⟨⟨?_, ?_, balanceda, ?_, ?_, balancedb, hinner⟩, ?_, ?_⟩ <;> omega

theorem balance_eq_lift (hleans : outer.height = inner.height + 2) :
    side.balance outer x inner = side.lift
      (side.join (if side.other.leans outer then side.other.lift outer else outer) x inner) := by
  cases side with
  | left => exact if_pos (by omega)
  | right => exact (if_neg (by omega)).trans (if_pos (by omega))

theorem balance_eq_join (houter : outer.height ≤ inner.height + 1)
    (hinner : inner.height ≤ outer.height + 1) :
    side.balance outer x inner = side.join outer x inner := by
  cases side with
  | left => exact (if_neg (by omega)).trans (if_neg (by omega))
  | right => exact (if_neg (by omega)).trans (if_neg (by omega))

variable (side) in
/-- Where one of two subtrees that were in balance has grown by one at most, so does the node above
them. -/
theorem grow_spec (annotated : t.Annotated) (houter : t.Balanced) (hinner : inner.Balanced)
    (hgrown : outer.height ≤ t.height ∧ t.height ≤ outer.height + 1)
    (hle : outer.height ≤ inner.height + 1) (hge : inner.height ≤ outer.height + 1)
    (x : Interval) :
    (side.balance t x inner).Balanced ∧
      max outer.height inner.height + 1 ≤ (side.balance t x inner).height ∧
      (side.balance t x inner).height ≤ max outer.height inner.height + 2 := by
  by_cases hleans : t.height = inner.height + 2
  · have hspec := lift_spec side annotated houter hinner hleans x
    rw [balance_eq_lift hleans]
    obtain ⟨balanced, hlower, hupper⟩ := hspec
    exact ⟨balanced, by omega, by omega⟩
  · rw [balance_eq_join (by omega) (by omega), balanced_join, height_join]
    exact ⟨⟨by omega, by omega, houter, hinner⟩, by omega, by omega⟩

end Side

/-! Insertions -/

namespace IntervalTree

/-- An insertion keeps a tree in balance and makes it higher by one at most. -/
theorem Balanced.insert {t : IntervalTree} (h : t.Balanced) (annotated : t.Annotated)
    (x : Interval) :
    (t.insert x).Balanced ∧ t.height ≤ (t.insert x).height ∧
      (t.insert x).height ≤ t.height + 1 := by
  induction t with
  | leaf => exact ⟨⟨Nat.zero_le 1, Nat.zero_le 1, trivial, trivial⟩, Nat.zero_le 1, Nat.le_refl 1⟩
  | node l y r height m ihl ihr =>
    have hheight : (node l y r height m).height = max l.height r.height + 1 := annotated.height_eq
    obtain ⟨-, hl, hr⟩ := annotated
    obtain ⟨hlr, hrl, balancedl, balancedr⟩ := h
    rw [IntervalTree.insert, hheight]
    split_ifs
    · obtain ⟨balanced, hgrown⟩ := ihl balancedl hl
      exact Side.grow_spec .left (hl.insert x) balanced balancedr hgrown hlr hrl y
    · obtain ⟨balanced, hgrown⟩ := ihr balancedr hr
      rw [Nat.max_comm]
      exact Side.grow_spec .right (hr.insert x) balanced balancedl hgrown hrl hlr y

/-- Whatever is inserted in order, the tree is annotated and in balance. -/
theorem balanced_foldl_insert (items : List Interval) :
    (items.foldl (fun t i => t.insert i) leaf).Annotated ∧
      (items.foldl (fun t i => t.insert i) leaf).Balanced := by
  induction items using List.reverseRecOn with
  | nil => exact ⟨trivial, trivial⟩
  | append_singleton items x ih =>
    rw [List.foldl_append]
    exact ⟨ih.1.insert x, (ih.2.insert ih.1 x).1⟩

/-- A balanced tree has no fewer nodes than a Fibonacci tree of its height. -/
theorem fib_le_size {t : IntervalTree} (h : t.Balanced) (annotated : t.Annotated) :
    Nat.fib (t.height + 2) ≤ t.size + 1 := by
  induction t with
  | leaf => decide
  | node l y r height m ihl ihr =>
    have hheight : (node l y r height m).height = max l.height r.height + 1 := annotated.height_eq
    obtain ⟨hlr, hrl, balancedl, balancedr⟩ := h
    have hl := ihl balancedl annotated.2.1
    have hr := ihr balancedr annotated.2.2
    have hsum : Nat.fib (max l.height r.height + 3) =
        Nat.fib (max l.height r.height + 1) + Nat.fib (max l.height r.height + 2) := Nat.fib_add_two
    rw [hheight, size]
    change Nat.fib (max l.height r.height + 3) ≤ _
    rcases Nat.le_total l.height r.height with hle | hle
    · have hlower : Nat.fib (r.height + 1) ≤ Nat.fib (l.height + 2) := Nat.fib_mono (by omega)
      rw [Nat.max_eq_right hle] at hsum ⊢
      omega
    · have hlower : Nat.fib (l.height + 1) ≤ Nat.fib (r.height + 2) := Nat.fib_mono (by omega)
      rw [Nat.max_eq_left hle] at hsum ⊢
      omega

/-! Everything that is recorded -/

/-- The subtrees at all nodes. -/
def subtrees : IntervalTree → List IntervalTree
  | leaf => []
  | node l x r h m => node l x r h m :: (l.subtrees ++ r.subtrees)

/-- What a node with these two subtrees records is true, and neither of them is higher than the
other by more than one. -/
structure Exact (l : IntervalTree) (x : Interval) (r : IntervalTree) (height maxUpper : Nat) :
    Prop where
  height_eq : height = max l.levels r.levels + 1
  isGreatest : IsGreatest {u | ∃ y ∈ l.toList ++ x :: r.toList, y.upper = u} maxUpper
  left_le : l.levels ≤ r.levels + 1
  right_le : r.levels ≤ l.levels + 1

theorem exact_of_mem_subtrees {t l r : IntervalTree} {x : Interval} {height m : Nat}
    (annotated : t.Annotated) (balanced : t.Balanced)
    (h : node l x r height m ∈ t.subtrees) : Exact l x r height m := by
  induction t with
  | leaf => cases h
  | node l' x' r' height' m' ihl ihr =>
    have hl := annotated.2.1
    have hr := annotated.2.2
    rw [subtrees, List.mem_cons, List.mem_append] at h
    rcases h with h | h | h
    · cases h
      obtain ⟨hlr, hrl, -, -⟩ := balanced
      rw [← hl.levels_eq, ← hr.levels_eq] at hlr hrl
      refine ⟨?_, annotated.isGreatest (by simp), hlr, hrl⟩
      rw [annotated.height_eq, hl.levels_eq, hr.levels_eq]
    · exact ihl hl balanced.2.2.1 h
    · exact ihr hr balanced.2.2.2 h

end IntervalTree

namespace IntervalArena

/-- Each cell in use is a node of the tree that is held. -/
theorem Holds.exists_node {cells : Array Cell} {link : Option Nat} {t : IntervalTree}
    {ids : List Nat} (h : Holds cells link t ids) {id : Nat} (hid : id ∈ ids) {cell : Cell}
    (read : cells[id]? = some cell) :
    ∃ l r ls rs, Holds cells cell.left l ls ∧ Holds cells cell.right r rs ∧
      .node l cell.interval r cell.height cell.maxUpper ∈ t.subtrees := by
  induction h with
  | leaf => cases hid
  | @node id' cell' l r ls rs root left right ihl ihr =>
    simp only [IntervalTree.subtrees, List.mem_cons, List.mem_append]
    rw [List.mem_append, List.mem_cons] at hid
    rcases hid with hid | rfl | hid
    · obtain ⟨l', r', ls', rs', hl, hr, hmem⟩ := ihl hid
      exact ⟨l', r', ls', rs', hl, hr, .inr (.inl hmem)⟩
    · obtain rfl : cell' = cell := Option.some.inj (root.symm.trans read)
      exact ⟨l, r, ls, rs, left, right, .inl rfl⟩
    · obtain ⟨l', r', ls', rs', hl, hr, hmem⟩ := ihr hid
      exact ⟨l', r', ls', rs', hl, hr, .inr (.inr hmem)⟩

end IntervalArena

/-- A number whose Fibonacci number is bounded is bounded by a logarithm. -/
theorem le_logb_goldenRatio {h n : Nat} (hfib : Nat.fib (h + 2) ≤ n) :
    (h : ℝ) ≤ Real.logb Real.goldenRatio n := by
  have hpow : Real.goldenRatio ^ h ≤ Nat.fib (h + 2) := by
    have hstep := Real.goldenRatio_mul_fib_succ_add_fib h
    have hsum : (Nat.fib (h + 2) : ℝ) = Nat.fib h + Nat.fib (h + 1) := by
      rw [Nat.fib_add_two, Nat.cast_add]
    have hone := Real.one_lt_goldenRatio
    have hpos := Real.goldenRatio_pos
    refine le_of_mul_le_mul_left ?_ hpos
    rw [← pow_succ', ← hstep, hsum]
    nlinarith [Nat.cast_nonneg (α := ℝ) (Nat.fib h)]
  have hle : Real.goldenRatio ^ h ≤ (n : ℝ) := hpow.trans (by exact_mod_cast hfib)
  have hn : (0 : ℝ) < n := (pow_pos Real.goldenRatio_pos h).trans_le hle
  rw [Real.le_logb_iff_rpow_le Real.one_lt_goldenRatio hn, Real.rpow_natCast]
  exact hle

namespace IntervalArena

/-- Whatever is inserted in order, every node records its height and the largest upper bound below
it, and the heights of its subtrees differ by one at most, in the tree as in the arena that holds
it. So the height is logarithmic in the number of intervals, and neither an insertion nor a query
goes down farther than that. -/
theorem balance_exact (items : List Interval) :
    let t := items.foldl (fun t i => t.insert i) IntervalTree.leaf
    (∀ l x r height m, .node l x r height m ∈ t.subtrees →
      IntervalTree.Exact l x r height m) ∧
    Nat.fib (t.levels + 2) ≤ items.length + 1 ∧
    (t.levels : ℝ) ≤ Real.logb Real.goldenRatio (items.length + 1) ∧
    ∃ arena, ofList? items = some arena ∧ arena.Represents t ∧
      (∀ (id : Nat) (cell : Cell), arena.cells[id]? = some cell →
        ∃ l r ls rs, Holds arena.cells cell.left l ls ∧ Holds arena.cells cell.right r rs ∧
          IntervalTree.Exact l cell.interval r cell.height cell.maxUpper) ∧
      (∀ x, ∃ cells root, arena.insert? x = some ⟨cells, some root⟩ ∧
        ∀ depth, t.levels ≤ depth →
          insertAt? (arena.cells.push (.single x)) arena.size depth arena.root =
            some (cells, root)) ∧
      ∀ query, arena.anyContains? query = some (items.any (·.contains query)) ∧
        ∀ depth, t.levels ≤ depth → containsWithin? arena.cells query depth arena.root =
          some (items.any (·.contains query)) := by
  intro t
  obtain ⟨annotated, balanced⟩ := IntervalTree.balanced_foldl_insert items
  obtain ⟨arena, harena, hsize, represents⟩ := ofList?_spec items
  have hexact {l r : IntervalTree} {x : Interval} {height m : Nat}
      (h : .node l x r height m ∈ t.subtrees) : IntervalTree.Exact l x r height m :=
    IntervalTree.exact_of_mem_subtrees annotated balanced h
  have hfib : Nat.fib (t.levels + 2) ≤ items.length + 1 := by
    have hlength : t.size = items.length := by
      rw [← IntervalTree.length_toList, IntervalTree.toList_foldl_insert, sortByLower,
        List.length_mergeSort]
    rw [← hlength, annotated.levels_eq]
    exact IntervalTree.fib_le_size balanced annotated
  refine ⟨fun l x r height m h => hexact h, hfib, ?_, arena, harena, represents, ?_, ?_, ?_⟩
  · exact_mod_cast le_logb_goldenRatio hfib
  · intro id cell read
    obtain ⟨ids, holds, perm⟩ := represents
    obtain ⟨hlt, -⟩ := Array.getElem?_eq_some_iff.mp read
    obtain ⟨l, r, ls, rs, hl, hr, hmem⟩ :=
      holds.exists_node (perm.mem_iff.mpr (List.mem_range.mpr hlt)) read
    exact ⟨l, r, ls, rs, hl, hr, hexact hmem⟩
  · intro x
    obtain ⟨cells, root, hinsert, hdepth, -⟩ := represents.exists_insert x
    exact ⟨cells, root, hinsert, hdepth⟩
  · intro query
    rw [← IntervalSet.anyContains_treeOf]
    refine ⟨represents.anyContains?_eq query, fun depth hdepth => ?_⟩
    obtain ⟨ids, holds, -⟩ := represents
    exact holds.containsWithin?_eq query hdepth

end IntervalArena

end TermScan
