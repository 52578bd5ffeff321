import Mathlib.Data.List.Sort
import TermScan.Interval.Set

/-!
# Containment queries are exact

A tree is kept in the order of lower bounds, with new intervals behind those that start at the same
place, and every recorded upper bound is the largest one below it. So the single path that a query
follows misses nothing, and a set answers as if it looked at every interval in it.
-/
namespace TermScan

namespace IntervalTree

/-- Every node carries the annotations of its two subtrees. -/
def Annotated : IntervalTree → Prop
  | leaf => True
  | node l x r h m => node l x r h m = join l x r ∧ l.Annotated ∧ r.Annotated

/-- From left to right no interval starts before the one before it. -/
def Ordered (t : IntervalTree) : Prop := t.toList.Pairwise fun a b => a.lower ≤ b.lower

@[simp] theorem toList_join (l : IntervalTree) (x : Interval) (r : IntervalTree) :
    (join l x r).toList = l.toList ++ x :: r.toList := rfl

@[simp] theorem toList_rotateRight (t : IntervalTree) : t.rotateRight.toList = t.toList := by
  unfold rotateRight
  split <;> simp [toList]

@[simp] theorem toList_rotateLeft (t : IntervalTree) : t.rotateLeft.toList = t.toList := by
  unfold rotateLeft
  split <;> simp [toList]

@[simp] theorem toList_balance (l : IntervalTree) (x : Interval) (r : IntervalTree) :
    (balance l x r).toList = l.toList ++ x :: r.toList := by
  unfold balance
  split_ifs <;> simp

theorem annotated_join {l r : IntervalTree} (hl : l.Annotated) (hr : r.Annotated) (x : Interval) :
    (join l x r).Annotated := ⟨rfl, hl, hr⟩

theorem Annotated.rotateRight {t : IntervalTree} (h : t.Annotated) : t.rotateRight.Annotated := by
  unfold IntervalTree.rotateRight
  split
  · next a x b _ _ y c _ _ =>
    obtain ⟨-, ⟨-, ha, hb⟩, hc⟩ := h
    exact annotated_join ha (annotated_join hb hc y) x
  · exact h

theorem Annotated.rotateLeft {t : IntervalTree} (h : t.Annotated) : t.rotateLeft.Annotated := by
  unfold IntervalTree.rotateLeft
  split
  · next a x b y c _ _ _ _ =>
    obtain ⟨-, ha, -, hb, hc⟩ := h
    exact annotated_join (annotated_join ha hb x) hc y
  · exact h

theorem annotated_balance {l r : IntervalTree} (hl : l.Annotated) (hr : r.Annotated)
    (x : Interval) : (balance l x r).Annotated := by
  unfold balance
  split_ifs
  · exact (annotated_join hl.rotateLeft hr x).rotateRight
  · exact (annotated_join hl hr x).rotateRight
  · exact (annotated_join hl hr.rotateRight x).rotateLeft
  · exact (annotated_join hl hr x).rotateLeft
  · exact annotated_join hl hr x

theorem Annotated.insert {t : IntervalTree} (h : t.Annotated) (x : Interval) :
    (t.insert x).Annotated := by
  induction t with
  | leaf => exact ⟨rfl, trivial, trivial⟩
  | node l y r _ _ ihl ihr =>
    obtain ⟨-, hl, hr⟩ := h
    rw [IntervalTree.insert]
    split_ifs
    · exact annotated_balance (ihl hl) hr y
    · exact annotated_balance hl (ihr hr) y

/-! The order of the intervals -/

/-- The order in which intervals are kept. -/
def insertOrdered (x : Interval) (items : List Interval) : List Interval :=
  items.orderedInsert (fun a b => a.lower < b.lower) x

theorem insertOrdered_append_of_lt {x y : Interval} (h : x.lower < y.lower)
    (left right : List Interval) :
    insertOrdered x (left ++ y :: right) = insertOrdered x left ++ y :: right := by
  induction left with
  | nil => simp [insertOrdered, h]
  | cons z left ih =>
    by_cases hz : x.lower < z.lower
    · simp [insertOrdered, hz]
    · simpa [insertOrdered, hz] using ih

theorem insertOrdered_append_of_le {x : Interval} {left : List Interval}
    (h : ∀ z ∈ left, z.lower ≤ x.lower) (right : List Interval) :
    insertOrdered x (left ++ right) = left ++ insertOrdered x right := by
  induction left with
  | nil => rfl
  | cons z left ih =>
    rw [List.forall_mem_cons] at h
    have hz : ¬x.lower < z.lower := h.1.not_gt
    simpa [insertOrdered, hz] using ih h.2

theorem toList_insert {t : IntervalTree} (h : t.Ordered) (x : Interval) :
    (t.insert x).toList = insertOrdered x t.toList := by
  induction t with
  | leaf => rfl
  | node l y r _ _ ihl ihr =>
    rw [Ordered, toList, List.pairwise_append, List.pairwise_cons] at h
    obtain ⟨hl, ⟨hyr, hr⟩, hlr⟩ := h
    rw [IntervalTree.insert, toList]
    split_ifs with hlt
    · rw [toList_balance, ihl hl, insertOrdered_append_of_lt hlt]
    · have before : ∀ z ∈ l.toList ++ [y], z.lower ≤ x.lower := by
        intro z hz
        rcases List.mem_append.mp hz with hz | hz
        · exact (hlr z hz y List.mem_cons_self).trans (Nat.le_of_not_lt hlt)
        · rw [List.mem_singleton.mp hz]
          exact Nat.le_of_not_lt hlt
      rw [toList_balance, ihr hr, show l.toList ++ y :: r.toList = (l.toList ++ [y]) ++ r.toList by
        simp, insertOrdered_append_of_le before]
      simp

theorem mem_insertOrdered {x z : Interval} {items : List Interval} :
    z ∈ insertOrdered x items ↔ z = x ∨ z ∈ items := List.mem_orderedInsert _

theorem pairwise_insertOrdered {x : Interval} {items : List Interval}
    (h : items.Pairwise fun a b => a.lower ≤ b.lower) :
    (insertOrdered x items).Pairwise fun a b => a.lower ≤ b.lower := by
  induction items with
  | nil => simp [insertOrdered]
  | cons y items ih =>
    rw [List.pairwise_cons] at h
    by_cases hlt : x.lower < y.lower
    · have first : ∀ z ∈ y :: items, x.lower ≤ z.lower := by
        rintro z (_ | ⟨_, hz⟩)
        · exact hlt.le
        · exact hlt.le.trans (h.1 z hz)
      simpa [insertOrdered, hlt] using And.intro (by simpa using first) h
    · have rest : ∀ z ∈ insertOrdered x items, y.lower ≤ z.lower := by
        intro z hz
        rcases mem_insertOrdered.mp hz with rfl | hz
        · exact Nat.le_of_not_lt hlt
        · exact h.1 z hz
      have tail := List.pairwise_cons.mpr ⟨rest, ih h.2⟩
      simpa [insertOrdered, hlt] using tail

theorem Ordered.insert {t : IntervalTree} (h : t.Ordered) (x : Interval) :
    (t.insert x).Ordered := by
  rw [Ordered, toList_insert h]
  exact pairwise_insertOrdered h

/-! Queries -/

theorem Annotated.maxUpper_eq {l r : IntervalTree} {y : Interval} {height m : Nat}
    (h : (node l y r height m).Annotated) : m = max y.upper (max l.maxUpper r.maxUpper) := by
  have hjoin := h.1
  simp only [join, node.injEq] at hjoin
  exact hjoin.2.2.2.2

theorem le_maxUpper {t : IntervalTree} (h : t.Annotated) {x : Interval} (hx : x ∈ t.toList) :
    x.upper ≤ t.maxUpper := by
  induction t with
  | leaf => simp [toList] at hx
  | node l y r height m ihl ihr =>
    have hm := h.maxUpper_eq
    obtain ⟨-, hl, hr⟩ := h
    rw [toList, List.mem_append, List.mem_cons] at hx
    rw [maxUpper]
    rcases hx with hx | rfl | hx
    · have := ihl hl hx
      omega
    · omega
    · have := ihr hr hx
      omega

theorem exists_le_upper {t : IntervalTree} (h : t.Annotated) {upper : Nat} (hpos : 0 < upper)
    (hle : upper ≤ t.maxUpper) : ∃ x ∈ t.toList, upper ≤ x.upper := by
  induction t with
  | leaf => simp [maxUpper] at hle; omega
  | node l y r height m ihl ihr =>
    have hm := h.maxUpper_eq
    obtain ⟨-, hl, hr⟩ := h
    have hcases : upper ≤ y.upper ∨ upper ≤ l.maxUpper ∨ upper ≤ r.maxUpper := by
      rw [maxUpper, hm] at hle
      omega
    rw [toList]
    rcases hcases with hle | hle | hle
    · exact ⟨y, by simp, hle⟩
    · obtain ⟨x, hx, hupper⟩ := ihl hl hle
      exact ⟨x, by simp [hx], hupper⟩
    · obtain ⟨x, hx, hupper⟩ := ihr hr hle
      exact ⟨x, by simp [hx], hupper⟩

theorem reaches_iff {t : IntervalTree} (h : t.Annotated) {upper : Nat} :
    t.reaches upper ↔ ∃ x ∈ t.toList, upper ≤ x.upper := by
  cases t with
  | leaf => simp [reaches, toList]
  | node l y r height m =>
    rw [reaches, decide_eq_true_eq]
    constructor
    · intro hle
      by_cases hzero : upper = 0
      · exact ⟨y, by simp [toList], by omega⟩
      · exact exists_le_upper h (Nat.pos_of_ne_zero hzero) hle
    · rintro ⟨x, hx, hupper⟩
      exact hupper.trans (le_maxUpper h hx)

theorem contains_iff {outer inner : Interval} :
    outer.contains inner ↔ outer.lower ≤ inner.lower ∧ inner.upper ≤ outer.upper := by
  simp [Interval.contains]

theorem anyContains_iff {t : IntervalTree} (annotated : t.Annotated) (ordered : t.Ordered)
    (query : Interval) : t.anyContains query ↔ ∃ x ∈ t.toList, x.contains query := by
  induction t with
  | leaf => simp [anyContains, toList]
  | node l y r height m ihl ihr =>
    have hmax (x : Interval) (hx : x ∈ (node l y r height m).toList) : x.upper ≤ m :=
      le_maxUpper annotated hx
    obtain ⟨-, hl, hr⟩ := annotated
    rw [Ordered, toList, List.pairwise_append, List.pairwise_cons] at ordered
    obtain ⟨ordl, ⟨hyr, ordr⟩, hlr⟩ := ordered
    rw [anyContains]
    split_ifs with hupper hlower
    · -- nothing in the tree ends late enough
      simp only [false_iff, not_exists, not_and, contains_iff]
      intro x hx _ _
      have := hmax x hx
      omega
    · -- the root and what is right of it start too late
      rw [ihl hl ordl, toList]
      refine ⟨fun ⟨x, hx, h⟩ => ⟨x, by simp [hx], h⟩, fun ⟨x, hx, h⟩ => ⟨x, ?_, h⟩⟩
      have hstart := (contains_iff.mp h).1
      rcases List.mem_append.mp hx with hx | hx
      · exact hx
      · rcases List.mem_cons.mp hx with rfl | hx
        · omega
        · have := hyr x hx
          omega
    · -- all that is left of the root starts early enough, and so does the root
      have early : ∀ x ∈ l.toList, x.lower ≤ query.lower := fun x hx =>
        (hlr x hx y List.mem_cons_self).trans (Nat.le_of_not_lt hlower)
      rw [Bool.or_eq_true, Bool.or_eq_true, reaches_iff hl, decide_eq_true_eq, ihr hr ordr, toList]
      simp only [List.mem_append, List.mem_cons, contains_iff]
      constructor
      · rintro ((⟨x, hx, h⟩ | h) | ⟨x, hx, h⟩)
        · exact ⟨x, .inl hx, early x hx, h⟩
        · exact ⟨y, .inr (.inl rfl), Nat.le_of_not_lt hlower, h⟩
        · exact ⟨x, .inr (.inr hx), h⟩
      · rintro ⟨x, hx | rfl | hx, h⟩
        · exact .inl (.inl ⟨x, hx, h.2⟩)
        · exact .inl (.inr h.2)
        · exact .inr ⟨x, hx, h⟩

end IntervalTree

namespace IntervalSet

/-- What every set that is built by insertions satisfies. -/
def Sound : IntervalSet → Prop
  | linear _ => True
  | tree root => root.Annotated ∧ root.Ordered

theorem sound_empty : empty.Sound := trivial

@[simp] theorem anyContains_empty (query : Interval) : empty.anyContains query = false := rfl

/-- The tree that intervals are moved into, one after the other. -/
theorem treeOf_spec (items : List Interval) {t : IntervalTree} (annotated : t.Annotated)
    (ordered : t.Ordered) :
    let t' := items.foldl (fun t i => t.insert i) t
    t'.Annotated ∧ t'.Ordered ∧ ∀ x, x ∈ t'.toList ↔ x ∈ t.toList ∨ x ∈ items := by
  induction items generalizing t with
  | nil => exact ⟨annotated, ordered, by simp⟩
  | cons i items ih =>
    obtain ⟨hannotated, hordered, hmem⟩ := ih (annotated.insert i) (ordered.insert i)
    refine ⟨hannotated, hordered, fun x => ?_⟩
    rw [List.foldl_cons, hmem, IntervalTree.toList_insert ordered, IntervalTree.mem_insertOrdered,
      List.mem_cons]
    tauto

/-- The tree that intervals make answers as if it looked at each of them. -/
theorem anyContains_treeOf (items : List Interval) (query : Interval) :
    (items.foldl (fun t i => t.insert i) IntervalTree.leaf).anyContains query =
      items.any (·.contains query) := by
  obtain ⟨annotated, ordered, hmem⟩ := treeOf_spec (t := .leaf) items trivial List.Pairwise.nil
  rw [Bool.eq_iff_iff, IntervalTree.anyContains_iff annotated ordered, List.any_eq_true]
  simp [hmem, IntervalTree.toList]

theorem insert_spec {s : IntervalSet} (sound : s.Sound) (i : Interval) :
    (s.insert i).Sound ∧ ∀ x, x ∈ (s.insert i).toList ↔ x ∈ s.toList ∨ x = i := by
  cases s with
  | linear items =>
    rw [insert]
    cases Backing.choose (items ++ [i]).length with
    | linear => exact ⟨trivial, by simp [toList]⟩
    | tree =>
      obtain ⟨annotated, ordered, hmem⟩ :=
        treeOf_spec (t := .leaf) (items ++ [i]) trivial List.Pairwise.nil
      exact ⟨⟨annotated, ordered⟩, fun x => by simpa [toList, IntervalTree.toList] using hmem x⟩
  | tree root =>
    refine ⟨⟨sound.1.insert i, sound.2.insert i⟩, fun x => ?_⟩
    rw [insert, toList, toList, IntervalTree.toList_insert sound.2, IntervalTree.mem_insertOrdered,
      or_comm]

theorem insertAll_spec {s : IntervalSet} (sound : s.Sound) (items : List Interval) :
    (s.insertAll items).Sound ∧ ∀ x, x ∈ (s.insertAll items).toList ↔ x ∈ s.toList ∨ x ∈ items := by
  induction items generalizing s with
  | nil => exact ⟨sound, by simp [insertAll]⟩
  | cons i items ih =>
    obtain ⟨hsound, hmem⟩ := insert_spec sound i
    obtain ⟨hsound', hmem'⟩ := ih hsound
    refine ⟨hsound', fun x => ?_⟩
    rw [insertAll, List.foldl_cons, ← insertAll, hmem', hmem, List.mem_cons, or_assoc]

/-- A set answers as if it looked at every interval in it. -/
theorem anyContains_iff {s : IntervalSet} (sound : s.Sound) (query : Interval) :
    s.anyContains query ↔ ∃ x ∈ s.toList, x.contains query := by
  cases s with
  | linear items => simp [anyContains, toList]
  | tree root => exact IntervalTree.anyContains_iff sound.1 sound.2 query

end IntervalSet

end TermScan
