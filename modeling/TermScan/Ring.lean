/-!
# Recent values

A ring remembers the last `capacity` values pushed into it. While it fills, its slots grow; from
then on a push overwrites the oldest slot.
-/
namespace TermScan

/-- The last values of a sequence, at most `capacity` of them. -/
structure Ring (α : Type) where
  /-- How many values are remembered. -/
  capacity : Nat
  /-- The values, in the order in which their slots were first used. -/
  slots : Array α
  /-- The slot the next push writes to. -/
  head : Nat
  /-- The number of values remembered. -/
  size : Nat
  head_lt : head < capacity
  size_le : slots.size ≤ capacity
  head_eq : slots.size < capacity → head = slots.size
  size_eq : size = slots.size

namespace Ring

variable {α : Type}

/-- An empty ring. A capacity of zero is raised to one. -/
def empty (capacity : Nat) : Ring α where
  capacity := max 1 capacity
  slots := #[]
  head := 0
  size := 0
  head_lt := by omega
  size_le := Nat.zero_le _
  head_eq _ := rfl
  size_eq := rfl

def isEmpty (r : Ring α) : Bool := r.size == 0

theorem size_push_le {slots : Array α} {capacity head : Nat} (v : α) (h : slots.size ≤ capacity) :
    (if slots.size < capacity then slots.push v else slots.setIfInBounds head v).size ≤
      capacity := by
  split <;> simp <;> omega

theorem head_push_eq {slots : Array α} {capacity head : Nat} (v : α)
    (heq : slots.size < capacity → head = slots.size)
    (hlt : (if slots.size < capacity then slots.push v
      else slots.setIfInBounds head v).size < capacity) :
    (head + 1) % capacity =
      (if slots.size < capacity then slots.push v else slots.setIfInBounds head v).size := by
  split at hlt
  · next room =>
    rw [Array.size_push] at hlt
    rw [if_pos room, Array.size_push, Nat.mod_eq_of_lt (by omega)]
    omega
  · rw [Array.size_setIfInBounds] at hlt
    omega

theorem size_push_eq {slots : Array α} {capacity size head : Nat} (v : α)
    (hle : slots.size ≤ capacity) (heq : size = slots.size) :
    min (size + 1) capacity =
      (if slots.size < capacity then slots.push v else slots.setIfInBounds head v).size := by
  split <;> simp <;> omega

/-- Remembers a value, in place of the oldest one when the ring is full. -/
def push (r : Ring α) (v : α) : Ring α where
  capacity := r.capacity
  slots := if r.slots.size < r.capacity then r.slots.push v else r.slots.setIfInBounds r.head v
  head := (r.head + 1) % r.capacity
  size := min (r.size + 1) r.capacity
  head_lt := Nat.mod_lt _ (by have := r.head_lt; omega)
  size_le := size_push_le v r.size_le
  head_eq := head_push_eq v r.head_eq
  size_eq := size_push_eq v r.size_le r.size_eq

/-- The slot of the value pushed `back` pushes ago. -/
def index (r : Ring α) (back : Nat) : Nat := (r.head + r.capacity - 1 - back) % r.capacity

/-- The value pushed `back` pushes ago; `0` asks for the latest. -/
def get? (r : Ring α) (back : Nat) : Option α :=
  if back < r.size then r.slots[r.index back]? else none

def clear (r : Ring α) : Ring α where
  capacity := r.capacity
  slots := #[]
  head := 0
  size := 0
  head_lt := by have := r.head_lt; omega
  size_le := Nat.zero_le _
  head_eq _ := rfl
  size_eq := rfl

/-- The remembered values, the latest first. -/
def recent (r : Ring α) : List α := (List.range r.size).filterMap r.get?

/-- What can be done to a ring. -/
inductive Change (α : Type)
  | push (v : α)
  | clear
  deriving DecidableEq, Repr

def change (r : Ring α) : Change α → Ring α
  | .push v => r.push v
  | .clear => r.clear

end Ring

end TermScan
