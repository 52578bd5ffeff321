import Mathlib.Data.List.Basic
import Mathlib.Data.Nat.ModEq
import TermScan.Ring

/-!
# A ring remembers the latest values

The value pushed as number `n` lies in slot `n` modulo the capacity. While fewer than `capacity`
values follow it, it is not overwritten.
-/
namespace TermScan.Ring

variable {α : Type}

/-- The ring has had these values pushed into it since it was last empty. -/
structure Shows (r : Ring α) (pushed : List α) : Prop where
  size_eq : r.slots.size = min pushed.length r.capacity
  head_eq : r.head = pushed.length % r.capacity
  slot : ∀ i < pushed.length, pushed.length ≤ i + r.capacity →
    r.slots[i % r.capacity]? = pushed[i]?

theorem capacity_pos (r : Ring α) : 0 < r.capacity := Nat.zero_lt_of_lt r.head_lt

@[simp] theorem capacity_push (r : Ring α) (v : α) : (r.push v).capacity = r.capacity := rfl

theorem shows_empty (capacity : Nat) : (empty capacity : Ring α).Shows [] :=
  ⟨by simp [empty], by simp [empty], by simp⟩

theorem shows_clear (r : Ring α) : r.clear.Shows [] := ⟨by simp [clear], by simp [clear], by simp⟩

/-- A value is not overwritten before `capacity` others have followed it. -/
theorem slot_ne {capacity i n : Nat} (hi : i < n) (hn : n < i + capacity) :
    n % capacity ≠ i % capacity := by
  intro h
  have hmod : n ≡ i [MOD capacity] := h
  have hdvd : capacity ∣ n - i := (Nat.modEq_iff_dvd' hi.le).mp hmod.symm
  have := Nat.le_of_dvd (by omega) hdvd
  omega

theorem Shows.push {r : Ring α} {pushed : List α} (h : r.Shows pushed) (v : α) :
    (r.push v).Shows (pushed ++ [v]) := by
  have hcap := r.capacity_pos
  have hsize := h.size_eq
  refine ⟨?_, ?_, fun i hi hold => ?_⟩
  · simp only [Ring.push, List.length_append, List.length_singleton]
    split_ifs with full
    · rw [Array.size_push]
      omega
    · rw [Array.size_setIfInBounds]
      omega
  · simp only [Ring.push, List.length_append, List.length_singleton, h.head_eq]
    rw [Nat.mod_add_mod]
  · simp only [List.length_append, List.length_singleton, capacity_push] at hi hold
    simp only [Ring.push]
    by_cases full : r.slots.size < r.capacity
    · rw [if_pos full, Nat.mod_eq_of_lt (by omega), Array.getElem?_push]
      by_cases hlast : i = pushed.length
      · rw [if_pos (by omega), hlast]
        simp
      · have hslot := h.slot i (by omega) (by omega)
        rw [Nat.mod_eq_of_lt (by omega)] at hslot
        rw [if_neg (by omega), hslot, List.getElem?_append_left (by omega)]
    · rw [if_neg full, h.head_eq, Array.getElem?_setIfInBounds]
      by_cases hlast : i = pushed.length
      · subst hlast
        have := Nat.mod_lt pushed.length hcap
        rw [if_pos rfl, if_pos (by omega)]
        simp
      · rw [if_neg (slot_ne (by omega) (by omega)), h.slot i (by omega) (by omega),
          List.getElem?_append_left (by omega)]

theorem Shows.size_eq_min {r : Ring α} {pushed : List α} (h : r.Shows pushed) :
    r.size = min pushed.length r.capacity := r.size_eq.trans h.size_eq

/-- Nothing is subtracted from less, and the slot is one of those in use. -/
theorem index_lt (r : Ring α) {back : Nat} (hback : back < r.size) :
    back + 1 ≤ r.head + r.capacity ∧ r.index back < r.slots.size := by
  have hcap := r.capacity_pos
  have hsize := r.size_eq
  have hle := r.size_le
  refine ⟨by omega, ?_⟩
  by_cases hfull : r.slots.size < r.capacity
  · have hindex : r.head + r.capacity - 1 - back = r.head - 1 - back + r.capacity := by
      have := r.head_eq hfull
      omega
    rw [index, hindex, Nat.add_mod_right, Nat.mod_eq_of_lt (by have := r.head_lt; omega)]
    have := r.head_eq hfull
    omega
  · have := Nat.mod_lt (r.head + r.capacity - 1 - back) hcap
    rw [index]
    omega

/-- Counted back from the latest one, the values are those pushed, as far as the ring reaches. -/
theorem Shows.get?_eq {r : Ring α} {pushed : List α} (h : r.Shows pushed) (back : Nat) :
    r.get? back = if back < r.capacity then pushed.reverse[back]? else none := by
  have hcap := r.capacity_pos
  have hsize := h.size_eq_min
  rw [get?]
  by_cases hback : back < r.size
  · have hindex : r.index back = (pushed.length - 1 - back) % r.capacity := by
      rw [index, h.head_eq, show pushed.length % r.capacity + r.capacity - 1 - back =
        pushed.length % r.capacity + (r.capacity - 1 - back) by omega, Nat.mod_add_mod,
        show pushed.length + (r.capacity - 1 - back) =
          pushed.length - 1 - back + r.capacity by omega, Nat.add_mod_right]
    rw [if_pos hback, if_pos (by omega), hindex, h.slot _ (by omega) (by omega),
      List.getElem?_reverse (by omega)]
  · rw [if_neg hback]
    split_ifs with hlt
    · rw [List.getElem?_eq_none (by rw [List.length_reverse]; omega)]
    · rfl

theorem shows_foldl_push {r : Ring α} {pushed : List α} (h : r.Shows pushed) (values : List α) :
    (values.foldl push r).Shows (pushed ++ values) ∧
      (values.foldl push r).capacity = r.capacity := by
  induction values generalizing r pushed with
  | nil => exact ⟨by simpa using h, rfl⟩
  | cons v values ih =>
    have hstep := ih (h.push v)
    rw [List.append_assoc] at hstep
    exact hstep

/-- A fresh ring that values are pushed into gives them back, counted from the last one. -/
theorem get?_foldl_push {values : List α} {capacity back : Nat} (hback : back < values.length)
    (hcapacity : back < capacity) :
    (values.foldl push (empty capacity)).get? back = values[values.length - 1 - back]? := by
  have hempty : (empty capacity : Ring α).Shows [] := shows_empty capacity
  have hmax : (empty capacity : Ring α).capacity = max 1 capacity := rfl
  obtain ⟨hshows, hsame⟩ := shows_foldl_push hempty values
  rw [hshows.get?_eq, hsame, hmax, if_pos (by omega), List.nil_append,
    List.getElem?_reverse hback]

/-- A ring that is made for the largest of some values reaches back over each of them. -/
theorem le_foldl_max (size : α → Nat) (values : List α) (n : Nat) :
    n ≤ values.foldl (fun n v => max n (size v)) n ∧
      ∀ v ∈ values, size v ≤ values.foldl (fun n v => max n (size v)) n := by
  induction values generalizing n with
  | nil => simp
  | cons v values ih =>
    obtain ⟨hmax, hall⟩ := ih (max n (size v))
    rw [List.foldl_cons, List.forall_mem_cons]
    exact ⟨by omega, by omega, hall⟩

/-! Any number of changes -/

/-- What has been pushed since the last clear, once a change is made. -/
def Change.after (pushed : List α) : Change α → List α
  | push v => pushed ++ [v]
  | clear => []

/-- The values pushed since the last clear, in order. -/
def sinceClear (changes : List (Change α)) : List α := changes.foldl Change.after []

theorem Shows.change {r : Ring α} {pushed : List α} (h : r.Shows pushed) (change : Change α) :
    (r.change change).Shows (change.after pushed) ∧
      (r.change change).capacity = r.capacity := by
  cases change with
  | push v => exact ⟨h.push v, rfl⟩
  | clear => exact ⟨shows_clear r, rfl⟩

theorem Shows.changes {r : Ring α} {pushed : List α} (h : r.Shows pushed)
    (changes : List (Change α)) :
    (changes.foldl Ring.change r).Shows (changes.foldl Change.after pushed) ∧
      (changes.foldl Ring.change r).capacity = r.capacity := by
  induction changes generalizing r pushed with
  | nil => exact ⟨h, rfl⟩
  | cons change changes ih =>
    obtain ⟨hchange, hsame⟩ := h.change change
    obtain ⟨hshows, hcapacity⟩ := ih hchange
    exact ⟨hshows, hcapacity.trans hsame⟩

/-- After any pushes and clears a ring shows the values pushed since the last clear, as many as it
remembers, and counted back from the last one it finds each of them and nothing else. What it
computes to find them stays above zero and within the slots in use, and so does the slot that a push
into a full ring writes to; no sum on the way reaches twice the capacity. -/
theorem history_shown (capacity : Nat) (changes : List (Change α)) :
    let r := changes.foldl Ring.change (empty capacity)
    let values := sinceClear changes
    let cap := max capacity 1
    r.capacity = cap ∧ r.size = min values.length cap ∧ (r.isEmpty ↔ values.length = 0) ∧
    (∀ back, r.get? back =
      if h : back < min values.length cap then some values[values.length - 1 - back] else none) ∧
    (∀ back < r.size, back + 1 ≤ r.head + r.capacity ∧ r.index back < r.slots.size) ∧
    (r.slots.size < r.capacity ∨ r.head < r.slots.size) ∧
    r.head + r.capacity < 2 * cap := by
  intro r values cap
  have hempty : (empty capacity : Ring α).Shows [] := shows_empty capacity
  obtain ⟨hshows, hsame⟩ : r.Shows values ∧ r.capacity = max 1 capacity := hempty.changes changes
  have hcap : r.capacity = cap := hsame.trans (Nat.max_comm 1 capacity)
  have hsize : r.size = min values.length cap := hcap ▸ hshows.size_eq_min
  have hpos := r.capacity_pos
  have hhead := r.head_lt
  refine ⟨hcap, hsize, ?_, fun back => ?_, fun back hback => r.index_lt hback, ?_, by omega⟩
  · rw [isEmpty, beq_iff_eq]
    omega
  · rw [hshows.get?_eq, hcap]
    split_ifs with hreach hback hback
    · rw [List.getElem?_reverse (by omega), List.getElem?_eq_getElem]
    · rw [List.getElem?_eq_none (by rw [List.length_reverse]; omega)]
    · exact absurd hback (by omega)
    · rfl
  · have := r.size_eq
    omega

theorem history_shown_sample :
    let changes : List (Change Nat) := [.push 1, .push 2, .clear, .push 3, .push 4, .push 5]
    let r := changes.foldl Ring.change (empty 2)
    sinceClear changes = [3, 4, 5] ∧ r.size = 2 ∧ r.get? 1 = some 4 ∧ r.get? 2 = none ∧
      1 < r.size ∧ r.index 1 < r.slots.size := by
  intro changes r
  obtain ⟨-, hsize, -, hget, hindex, -⟩ := history_shown 2 changes
  have hlt : 1 < r.size := by decide
  exact ⟨rfl, hsize, hget 1, hget 2, hlt, (hindex 1 hlt).2⟩

end TermScan.Ring
