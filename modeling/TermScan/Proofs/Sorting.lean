import TermScan.Match

/-!
# Matches by position

Positions and terms order matches linearly as far as they tell them apart. So a list in which they
do comes out of sorting as any other list of the same matches does, and it increases strictly if
nothing in it is repeated.
-/
namespace TermScan.Match

/-- The order is lexicographic. -/
theorem isLE_comparePositions_iff {a b : Match} :
    (comparePositions a b).isLE ↔ a.first < b.first ∨ a.first = b.first ∧
      (a.last < b.last ∨ a.last = b.last ∧ a.termId ≤ b.termId) := by
  rw [comparePositions, Ordering.isLE_then_iff_or, Ordering.then_eq_lt, Ordering.then_eq_eq,
    Nat.compare_eq_lt, Nat.compare_eq_lt, Nat.compare_eq_eq, Nat.compare_eq_eq, Int.isLE_compare]
  omega

theorem comparePositions_trans (a b c : Match) (hab : (comparePositions a b).isLE)
    (hbc : (comparePositions b c).isLE) : (comparePositions a c).isLE := by
  rw [isLE_comparePositions_iff] at *
  omega

theorem comparePositions_total (a b : Match) :
    (comparePositions a b).isLE || (comparePositions b a).isLE := by
  rw [Bool.or_eq_true, isLE_comparePositions_iff, isLE_comparePositions_iff]
  omega

theorem pairwise_sort (ms : List Match) :
    (sort ms).Pairwise fun a b => (comparePositions a b).isLE :=
  List.pairwise_mergeSort comparePositions_trans comparePositions_total ms

theorem sort_perm (ms : List Match) : (sort ms).Perm ms := List.mergeSort_perm ms _

/-- No two matches of a list share their position and term. -/
def Distinguished (ms : List Match) : Prop :=
  ∀ a ∈ ms, ∀ b ∈ ms, a.first = b.first → a.last = b.last → a.termId = b.termId → a = b

/-- Lists of the same matches are sorted alike. -/
theorem sort_eq_of_perm {ms ms' : List Match} (h : ms.Perm ms') (distinguished : Distinguished ms) :
    sort ms = sort ms' := by
  have hperm : (sort ms).Perm (sort ms') := (sort_perm ms).trans (h.trans (sort_perm ms').symm)
  refine hperm.eq_of_pairwise (fun a b ha hb hab hba => ?_) (pairwise_sort ms) (pairwise_sort ms')
  rw [isLE_comparePositions_iff] at hab hba
  have ha : a ∈ ms := (sort_perm ms).mem_iff.mp ha
  have hb : b ∈ ms := h.mem_iff.mpr ((sort_perm ms').mem_iff.mp hb)
  exact distinguished a ha b hb (by omega) (by omega) (by omega)

/-- Only position and term are compared. -/
theorem comparePositions_eq_iff {a b : Match} :
    comparePositions a b = .eq ↔ a.first = b.first ∧ a.last = b.last ∧ a.termId = b.termId := by
  rw [comparePositions, Ordering.then_eq_eq, Ordering.then_eq_eq, Nat.compare_eq_eq,
    Nat.compare_eq_eq, Int.compare_eq_eq, and_assoc]

/-- A list without repetition in which position and term tell matches apart becomes strictly
increasing. -/
theorem strict_sort {ms : List Match} (nodup : ms.Nodup) (distinguished : Distinguished ms) :
    (sort ms).Pairwise fun a b => comparePositions a b = .lt := by
  have hnodup : (sort ms).Nodup := (sort_perm ms).nodup_iff.mpr nodup
  refine ((pairwise_sort ms).and hnodup).imp_of_mem fun {a b} ha hb h => ?_
  have ha : a ∈ ms := (sort_perm ms).mem_iff.mp ha
  have hb : b ∈ ms := (sort_perm ms).mem_iff.mp hb
  obtain ⟨hle, hne⟩ := h
  refine (Ordering.isLE_iff_eq_lt_or_eq_eq.mp hle).resolve_right fun heq => hne ?_
  obtain ⟨hfirst, hlast, hid⟩ := comparePositions_eq_iff.mp heq
  exact distinguished a ha b hb hfirst hlast hid

end TermScan.Match
