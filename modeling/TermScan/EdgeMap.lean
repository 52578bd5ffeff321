import Std.Data.HashMap
import TermScan.Text

/-!
# Maps from characters

A map keyed by characters that suits its size: most are tiny and stay a list of pairs; a larger
one becomes a row of 26 slots if its keys are all lowercase letters, and a hash table otherwise.
Whatever holds it, a map shows its last values and nothing else.
-/
namespace TermScan

namespace EdgeMap

/-- What holds the entries of a map. -/
inductive Store (β : Type)
  /-- Pairs in the order of insertion. -/
  | array (entries : List (Char × β))
  /-- One slot for each of the letters `a` to `z`. -/
  | bucket (slots : Vector (Option β) 26)
  | hash (table : Std.HashMap Char β)

end EdgeMap

/-- A map from characters to `β`. The number of keys and what they are like are kept beside the
entries, and choose what holds these. -/
structure EdgeMap (β : Type) where
  store : EdgeMap.Store β
  size : Nat
  /-- All keys are lowercase letters. -/
  allLower : Bool

namespace EdgeMap

inductive Backing
  | array
  | bucket
  | hash
  deriving DecidableEq, Repr

/-- The largest number of entries kept as a list of pairs. -/
def arrayThreshold : Nat := 10

/-- What holds `size` entries, given whether all keys are lowercase letters. -/
def Backing.choose (size : Nat) (allLower : Bool) : Backing :=
  if size ≤ arrayThreshold then array else if allLower then bucket else hash

variable {β : Type}

/-- The slot of a lowercase letter. -/
def slot? (key : Char) : Option (Fin 26) :=
  if h : 'a' ≤ key ∧ key ≤ 'z' then
    some ⟨key.toNat - 97, by
      have := Char.le_def.mp h.2
      have : key.toNat ≤ 122 := this
      omega⟩
  else none

/-- The letter of a slot. -/
def slotKey (i : Fin 26) : Char := Char.ofNat (97 + i.val)

/-- The pairs of a row of slots, in the order of the letters. -/
def slotEntries (slots : Vector (Option β) 26) : List (Char × β) :=
  (List.finRange 26).filterMap fun i => (slots[i]).map (slotKey i, ·)

/-- Writes the value of a key into a list of pairs, at the end if the key is new. -/
def setEntry (key : Char) (value : β) : List (Char × β) → List (Char × β)
  | [] => [(key, value)]
  | (k, v) :: rest => if k = key then (key, value) :: rest else (k, v) :: setEntry key value rest

namespace Store

def get? (s : Store β) (key : Char) : Option β :=
  match s with
  | array entries => entries.lookup key
  | bucket slots => (slot? key).bind fun i => slots[i]
  | hash table => table[key]?

def entries : Store β → List (Char × β)
  | array entries => entries
  | bucket slots => slotEntries slots
  | hash table => table.toList

def backing : Store β → Backing
  | array _ => .array
  | bucket _ => .bucket
  | hash _ => .hash

/-- Writes the value of a key. A row of slots is only asked to hold lowercase letters. -/
def write (s : Store β) (key : Char) (value : β) : Store β :=
  match s with
  | array entries => array (setEntry key value entries)
  | bucket slots =>
    match slot? key with
    | some i => bucket (slots.set i (some value))
    | none => bucket slots
  | hash table => hash (table.insert key value)

/-- The empty store of a kind. -/
def emptyOf : Backing → Store β
  | .array => array []
  | .bucket => bucket (Vector.replicate 26 none)
  | .hash => hash ∅

/-- The same pairs in a store of another kind. -/
def moveTo (s : Store β) (target : Backing) : Store β :=
  s.entries.foldl (fun t e => t.write e.1 e.2) (emptyOf target)

end Store

def empty : EdgeMap β := ⟨.array [], 0, true⟩

def get? (m : EdgeMap β) (key : Char) : Option β := m.store.get? key

@[simp] theorem get?_empty (key : Char) : (empty : EdgeMap β).get? key = none := rfl

/-- The pairs of the map, each key once. -/
def entries (m : EdgeMap β) : List (Char × β) := m.store.entries

def isEmpty (m : EdgeMap β) : Bool := m.size == 0

def backing (m : EdgeMap β) : Backing := m.store.backing

/-- What holds the map once it has the new key too. -/
def backingWith (m : EdgeMap β) (key : Char) : Backing :=
  .choose (m.size + 1) (m.allLower && key.isLower)

/-- Adds a key that the map does not have. The map may move into another store first. -/
def add (m : EdgeMap β) (key : Char) (value : β) : EdgeMap β :=
  let target := m.backingWith key
  let store := if target = m.backing then m.store else m.store.moveTo target
  ⟨store.write key value, m.size + 1, m.allLower && key.isLower⟩

/-- Sets the value of a key. Only a new key is counted. -/
def set (m : EdgeMap β) (key : Char) (value : β) : EdgeMap β :=
  if (m.get? key).isSome then { m with store := m.store.write key value } else m.add key value

/-- A change of backing: how many entries move, and between what. -/
structure Move where
  count : Nat
  source : Backing
  target : Backing
  deriving DecidableEq, Repr

/-- The change of backing that setting a key causes, if it causes one. -/
def move? (m : EdgeMap β) (key : Char) : Option Move :=
  if (m.get? key).isSome || m.backingWith key = m.backing then none
  else some ⟨m.entries.length, m.backing, m.backingWith key⟩

end EdgeMap

end TermScan
