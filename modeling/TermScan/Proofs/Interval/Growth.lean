import Mathlib.Data.List.Induction
import TermScan.Proofs.Interval.Containment

/-!
# Sets of intervals that grow

A set shows what has been added to it: in the order of addition while it is a list, and sorted by
lower bound, in a stable way, once it is a tree. The move from a list into a tree changes no answer.
-/
namespace TermScan

/-! Stable sorting -/

/-- Intervals by lower bound; those with the same one stay in order. -/
def sortByLower (items : List Interval) : List Interval :=
  items.mergeSort fun a b => a.lower ≤ b.lower

@[simp] theorem sortByLower_nil : sortByLower [] = [] := List.mergeSort_nil

/-- Puts an interval in front of those that do not start before it. -/
def insertInFront (x : Interval) (items : List Interval) : List Interval :=
  items.orderedInsert (fun a b => a.lower ≤ b.lower) x

theorem insertInFront_cons (x y : Interval) (items : List Interval) :
    insertInFront x (y :: items) =
      if x.lower ≤ y.lower then x :: y :: items else y :: insertInFront x items :=
  List.orderedInsert_cons _ x y items

theorem lower_trans (a b c : Interval) (hab : decide (a.lower ≤ b.lower))
    (hbc : decide (b.lower ≤ c.lower)) : decide (a.lower ≤ c.lower) := by
  rw [decide_eq_true_eq] at *
  omega

theorem lower_total (a b : Interval) :
    decide (a.lower ≤ b.lower) || decide (b.lower ≤ a.lower) := by
  rw [Bool.or_eq_true, decide_eq_true_eq, decide_eq_true_eq]
  omega

theorem pairwise_sortByLower (items : List Interval) :
    (sortByLower items).Pairwise fun x y => x.lower ≤ y.lower :=
  (List.pairwise_mergeSort lower_trans lower_total items).imp of_decide_eq_true

/-- Sorting keeps the order of those intervals that have one lower bound. -/
theorem filter_sortByLower (items : List Interval) (b : Nat) :
    (sortByLower items).filter (fun x => x.lower = b) =
      items.filter fun x => x.lower = b := by
  let le (x y : Interval) : Bool := x.lower ≤ y.lower
  let p (x : Interval) : Bool := x.lower = b
  have lower {x : Interval} (hx : x ∈ items.filter p) : x.lower = b :=
    of_decide_eq_true (List.of_mem_filter (p := p) hx)
  have alike : (items.filter p).Pairwise fun x y => le x y :=
    List.pairwise_of_forall_mem_list fun x hx y hy =>
      decide_eq_true ((lower hx).trans (lower hy).symm).le
  have sub : (items.filter p).Sublist (sortByLower items) :=
    List.sublist_mergeSort lower_trans lower_total alike List.filter_sublist
  have inside := sub.filter p
  simp only [List.filter_filter, Bool.and_self] at inside
  exact (inside.eq_of_length ((List.mergeSort_perm items le).filter p).length_eq.symm).symm

theorem sortByLower_cons (x : Interval) (items : List Interval) :
    sortByLower (x :: items) = insertInFront x (sortByLower items) := by
  obtain ⟨left, right, hsort, hrest, hleft⟩ := List.mergeSort_cons lower_trans lower_total x items
  have hsorted := List.pairwise_mergeSort lower_trans lower_total (x :: items)
  rw [hsort] at hsorted
  unfold sortByLower
  rw [hsort, hrest]
  clear hsort hrest
  induction left with
  | nil =>
    cases right with
    | nil => rfl
    | cons y right =>
      have hle := (List.pairwise_cons.mp hsorted).1 y List.mem_cons_self
      rw [decide_eq_true_eq] at hle
      rw [List.nil_append, List.nil_append, insertInFront_cons, if_pos hle]
  | cons y left ih =>
    have hlt := hleft y List.mem_cons_self
    rw [Bool.not_eq_true', decide_eq_false_iff_not] at hlt
    have hrest := ih (fun z hz => hleft z (List.mem_cons_of_mem y hz))
      (List.pairwise_cons.mp hsorted).2
    rw [List.cons_append, List.cons_append, insertInFront_cons, if_neg hlt, hrest]

namespace IntervalTree

theorem insertOrdered_cons (x y : Interval) (items : List Interval) :
    insertOrdered x (y :: items) =
      if x.lower < y.lower then x :: y :: items else y :: insertOrdered x items :=
  List.orderedInsert_cons _ x y items

/-- It makes no difference which is inserted first, an interval in front of its equals or another
one behind them. -/
theorem insertOrdered_insertInFront (x y : Interval) (items : List Interval) :
    insertOrdered x (insertInFront y items) = insertInFront y (insertOrdered x items) := by
  induction items with
  | nil =>
    change insertOrdered x [y] = insertInFront y [x]
    rw [insertOrdered_cons, insertInFront_cons]
    split_ifs
    · omega
    · rfl
    · rfl
    · omega
  | cons z items ih =>
    rw [insertOrdered_cons, insertInFront_cons]
    by_cases hy : y.lower ≤ z.lower
    · by_cases hx : x.lower < z.lower
      · rw [if_pos hy, if_pos hx, insertOrdered_cons, insertOrdered_cons, insertInFront_cons,
          insertInFront_cons, if_pos hy, if_pos hx]
        split_ifs
        · omega
        · rfl
        · rfl
        · omega
      · rw [if_pos hy, if_neg hx, insertOrdered_cons, insertOrdered_cons, insertInFront_cons,
          if_pos hy, if_neg hx, if_neg (by omega)]
    · by_cases hx : x.lower < z.lower
      · rw [if_neg hy, if_pos hx, insertOrdered_cons, insertInFront_cons, insertInFront_cons,
          if_pos hx, if_neg hy, if_neg (by omega)]
      · rw [if_neg hy, if_neg hx, insertOrdered_cons, insertInFront_cons, if_neg hx, if_neg hy, ih]

theorem sortByLower_concat (items : List Interval) (x : Interval) :
    sortByLower (items ++ [x]) = insertOrdered x (sortByLower items) := by
  induction items with
  | nil =>
    rw [List.nil_append, sortByLower_cons, sortByLower_nil]
    rfl
  | cons y items ih =>
    rw [List.cons_append, sortByLower_cons, ih, sortByLower_cons, insertOrdered_insertInFront]

@[simp] theorem length_toList (t : IntervalTree) : t.toList.length = t.size := by
  induction t with
  | leaf => rfl
  | node l x r _ _ ihl ihr =>
    rw [toList, size, List.length_append, List.length_cons, ihl, ihr]
    omega

/-- A tree shows what has been inserted into it, sorted in a stable way. -/
theorem toList_foldl_insert (items : List Interval) :
    (items.foldl (fun t i => t.insert i) leaf).toList = sortByLower items := by
  induction items using List.reverseRecOn with
  | nil => exact sortByLower_nil.symm
  | append_singleton items x ih =>
    have ordered := (IntervalSet.treeOf_spec items (t := leaf) trivial List.Pairwise.nil).2.1
    rw [List.foldl_append, List.foldl_cons, List.foldl_nil, toList_insert ordered, ih,
      sortByLower_concat]

end IntervalTree

/-! Growth -/

namespace IntervalSet

/-- A way to add intervals to a set: one, or several in order. -/
inductive Addition
  | insert (x : Interval)
  | extend (xs : List Interval)
  deriving DecidableEq, Repr

/-- The intervals that an addition brings. -/
def Addition.intervals : Addition → List Interval
  | insert x => [x]
  | extend xs => xs

/-- The set after an addition. -/
def add (s : IntervalSet) : Addition → IntervalSet
  | .insert x => s.insert x
  | .extend xs => s.insertAll xs

/-- The set that additions make of an empty one. -/
def grow (additions : List Addition) : IntervalSet := additions.foldl add empty

/-- All intervals that additions bring. -/
def added (additions : List Addition) : List Interval := additions.flatMap Addition.intervals

theorem grow_eq (additions : List Addition) :
    grow additions = empty.insertAll (added additions) := by
  have hadd (s : IntervalSet) (a : Addition) : s.add a = s.insertAll a.intervals := by
    cases a <;> rfl
  rw [grow, insertAll, added, List.foldl_flatMap]
  congr 1
  funext s a
  exact hadd s a

/-- A set is a list while it is small, and then a tree. -/
theorem insertAll_empty (items : List Interval) :
    empty.insertAll items =
      if items.length < treeThreshold then linear items
      else tree (items.foldl (fun t i => t.insert i) .leaf) := by
  induction items using List.reverseRecOn with
  | nil => rfl
  | append_singleton items x ih =>
    have hstep : empty.insertAll (items ++ [x]) = (empty.insertAll items).insert x := by
      rw [insertAll, List.foldl_append]
      rfl
    rw [hstep, ih, List.length_append, List.length_singleton]
    by_cases hsmall : items.length < treeThreshold
    · rw [if_pos hsmall, insert, List.length_append, List.length_singleton, Backing.choose]
      split_ifs <;> rfl
    · rw [if_neg hsmall, if_neg (by omega), insert, List.foldl_append]
      rfl

theorem toList_insertAll_empty (items : List Interval) :
    (empty.insertAll items).toList =
      if items.length < treeThreshold then items else sortByLower items := by
  rw [insertAll_empty]
  split_ifs
  · rfl
  · exact IntervalTree.toList_foldl_insert items

theorem size_insertAll_empty (items : List Interval) :
    (empty.insertAll items).size = items.length := by
  rw [insertAll_empty]
  split_ifs
  · rfl
  · rw [size, ← IntervalTree.length_toList, IntervalTree.toList_foldl_insert, sortByLower,
      List.length_mergeSort]

theorem backing_insertAll_empty (items : List Interval) :
    (empty.insertAll items).backing = .choose items.length := by
  rw [insertAll_empty, Backing.choose]
  split_ifs <;> rfl

@[simp] theorem toList_empty : empty.toList = [] := rfl

@[simp] theorem toList_linear (items : List Interval) : (linear items).toList = items := rfl

/-- An insertion into a list answers as the longer list would, be it moved into a tree or not. -/
theorem anyContains_insert_linear (items : List Interval) (x query : Interval) :
    ((linear items).insert x).anyContains query = (linear (items ++ [x])).anyContains query := by
  obtain ⟨sound, hmem⟩ := insert_spec (s := linear items) trivial x
  rw [Bool.eq_iff_iff, anyContains_iff sound, anyContains_iff (s := linear (items ++ [x])) trivial]
  simp [hmem]

end IntervalSet

end TermScan
