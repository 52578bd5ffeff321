import Mathlib.Algebra.Ring.Nat
import Mathlib.Data.List.SplitBy
import TermScan.Proofs.Pattern.Choices

/-!
# Expansions by number

The bits of its number say which optionals an expansion keeps. What stays is merged: empty literals
vanish, and each run of literals becomes one. The expansions are told apart from a direct reading of
the nodes, in which every optional is present or absent; both match the same texts.
-/
namespace TermScan

/-! Kept atoms -/

/-- The atoms that number `n` keeps where the first optional is the `j`-th one: an optional is kept
if the bit of its place is set. -/
def keptFrom (n : Nat) : Nat → List Node → List Atom
  | _, [] => []
  | j, .one atom :: nodes => atom :: keptFrom n j nodes
  | j, .optional atom :: nodes =>
    if n.testBit j then atom :: keptFrom n (j + 1) nodes else keptFrom n (j + 1) nodes

/-- The atoms that number `n` keeps. -/
def keptAtoms (n : Nat) (nodes : List Node) : List Atom := keptFrom n 0 nodes

theorem keptFrom_succ (n j : Nat) (nodes : List Node) :
    keptFrom n (j + 1) nodes = keptFrom (n / 2) j nodes := by
  induction nodes generalizing j with
  | nil => rfl
  | cons node nodes ih =>
    cases node with
    | one atom => simp only [keptFrom, ih]
    | optional atom => simp only [keptFrom, ih, Nat.testBit_succ]

/-! Runs of a list -/

section Runs

variable {α : Type} {r : α → α → Bool} {a b : α} {l run : List α} {runs : List (List α)}

theorem exists_splitBy_cons (r : α → α → Bool) (a : α) (l : List α) :
    ∃ run runs, (a :: l).splitBy r = (a :: run) :: runs := by
  obtain ⟨hflat, hfilled, -⟩ := List.splitBy_eq_iff.mp (rfl : (a :: l).splitBy r = _)
  cases hsplit : (a :: l).splitBy r with
  | nil => simp at hsplit
  | cons run runs =>
    rw [hsplit] at hflat hfilled
    cases run with
    | nil => simp at hfilled
    | cons b run =>
      rw [List.flatten_cons, List.cons_append, List.cons.injEq] at hflat
      exact ⟨run, runs, by rw [hflat.1]⟩

/-- What joins the next element joins the run that this element begins. -/
theorem splitBy_cons_of_joins (hab : r a b) (h : (b :: l).splitBy r = (b :: run) :: runs) :
    (a :: b :: l).splitBy r = (a :: b :: run) :: runs := by
  obtain ⟨hflat, hfilled, hchains, hapart⟩ := List.splitBy_eq_iff.mp h
  rw [List.forall_mem_cons] at hchains
  refine List.splitBy_eq_iff.mpr ⟨by rw [hflat]; rfl, by simpa using hfilled, ?_, ?_⟩
  · exact List.forall_mem_cons.mpr ⟨List.isChain_cons_cons.mpr ⟨hab, hchains.1⟩, hchains.2⟩
  · cases runs with
    | nil => exact List.isChain_singleton _
    | cons next runs =>
      rw [List.isChain_cons_cons] at hapart ⊢
      simpa using hapart

theorem splitBy_cons_of_apart (h : ∀ b ∈ l.head?, r a b = false) :
    (a :: l).splitBy r = [a] :: l.splitBy r :=
  List.splitBy_append (l := [a]) (by simpa using h)

end Runs

/-! Merging -/

namespace Atom

def isLiteral : Atom → Bool
  | literal _ => true
  | wildcard => false

/-- The characters of a literal. -/
def chars : Atom → List Char
  | literal chars => chars
  | wildcard => []

/-- Neighbours that become one. -/
def joins (a b : Atom) : Bool := a.isLiteral && b.isLiteral

/-- One atom for a run of atoms that join; a wildcard joins no other atom. -/
def ofRun : List Atom → Atom
  | [wildcard] => wildcard
  | run => literal (run.flatMap chars)

end Atom

namespace Expansion

/-- Deletes empty literals and makes one literal of each maximal run of adjacent ones. -/
def merge (atoms : List Atom) : Expansion :=
  ((atoms.filter (· ≠ .literal [])).splitBy Atom.joins).map Atom.ofRun

/-- No two literals are adjacent. -/
def Apart (e : Expansion) : Prop := e.IsChain fun a b => ¬a.joins b

/-- Merging puts one atom after the other in front, from the right. -/
theorem merge_cons (a : Atom) (atoms : List Atom) :
    merge (a :: atoms) = (merge atoms).push a := by
  unfold merge
  cases a with
  | wildcard =>
    rw [List.filter_cons_of_pos (by simp), splitBy_cons_of_apart fun _ _ => rfl]
    rfl
  | literal chars =>
    cases chars with
    | nil => rfl
    | cons c cs =>
      rw [List.filter_cons_of_pos (by simp)]
      cases atoms.filter (· ≠ .literal []) with
      | nil =>
        rw [splitBy_cons_of_apart (by simp)]
        simp [Atom.ofRun, Atom.chars, push]
      | cons b kept =>
        cases b with
        | wildcard =>
          have hsplit : (Atom.wildcard :: kept).splitBy Atom.joins =
              [.wildcard] :: kept.splitBy Atom.joins := splitBy_cons_of_apart fun _ _ => rfl
          rw [splitBy_cons_of_apart (by simp [Atom.joins, Atom.isLiteral]), hsplit]
          simp [Atom.ofRun, Atom.chars, push]
        | literal ds =>
          obtain ⟨run, runs, hsplit⟩ := exists_splitBy_cons Atom.joins (.literal ds) kept
          rw [splitBy_cons_of_joins rfl hsplit, hsplit]
          simp [Atom.ofRun, Atom.chars, push]

/-- A literal that meets another one joins it. -/
theorem apart_push (a : Atom) {e : Expansion} (h : e.Apart) : (e.push a).Apart := by
  unfold Expansion.push
  split
  · exact h
  · exact List.isChain_cons.mpr (List.isChain_cons.mp h)
  · next hempty hmeets =>
    refine List.isChain_cons.mpr ⟨fun b hb => ?_, h⟩
    obtain ⟨rest, rfl⟩ := List.head?_eq_some_iff.mp hb
    cases a with
    | wildcard => simp [Atom.joins, Atom.isLiteral]
    | literal chars =>
      cases chars with
      | nil => simp at hempty
      | cons c cs =>
        cases b with
        | wildcard => simp [Atom.joins, Atom.isLiteral]
        | literal ds => exact (hmeets c cs ds rest rfl rfl).elim

theorem apart_of_mem_expand {nodes : List Node} {e : Expansion} (h : e ∈ expand nodes) :
    e.Apart :=
  expand_induction List.isChain_nil (fun a _ => apart_push a) h

theorem width_merge (atoms : List Atom) : (merge atoms).width = (atoms.map Atom.width).sum := by
  induction atoms with
  | nil => rfl
  | cons a atoms ih => rw [merge_cons, width_push, ih, List.map_cons, List.sum_cons]

end Expansion

/-! Numbers -/

theorem length_expand (nodes : List Node) :
    (expand nodes).length = 2 ^ nodes.countP Node.isOptional := by
  induction nodes with
  | nil => rfl
  | cons node nodes ih =>
    cases node with
    | one atom => rw [expand, List.length_map, ih, countP_isOptional_one]
    | optional atom =>
      rw [expand, List.length_flatMap, countP_isOptional_optional, Nat.pow_succ, ← ih]
      simp

/-- Where each item of a list stands for two, the last bit of an index tells them apart. -/
theorem getElem?_flatMap_pair {α β : Type} (f g : α → β) (items : List α) (n : Nat) :
    (items.flatMap fun x => [f x, g x])[n]? =
      items[n / 2]?.map fun x => if n.testBit 0 then g x else f x := by
  induction items generalizing n with
  | nil => simp
  | cons x items ih =>
    match n with
    | 0 => simp
    | 1 => simp
    | n + 2 => simpa using ih n

/-- The expansions in the order of their numbers. -/
theorem getElem?_expand (nodes : List Node) (n : Nat) :
    (expand nodes)[n]? =
      if n < 2 ^ nodes.countP Node.isOptional then some (.merge (keptAtoms n nodes)) else none := by
  induction nodes generalizing n with
  | nil =>
    cases n with
    | zero => rfl
    | succ n => simp [expand]
  | cons node nodes ih =>
    cases node with
    | one atom =>
      have hkept : keptAtoms n (.one atom :: nodes) = atom :: keptAtoms n nodes := rfl
      rw [expand, List.getElem?_map, ih, countP_isOptional_one, hkept, Expansion.merge_cons]
      split_ifs <;> rfl
    | optional atom =>
      have hhalf : n / 2 < 2 ^ nodes.countP Node.isOptional ↔
          n < 2 ^ (nodes.countP Node.isOptional + 1) := by
        rw [Nat.pow_succ]
        omega
      have hkept : keptAtoms n (.optional atom :: nodes) =
          if n.testBit 0 then atom :: keptAtoms (n / 2) nodes else keptAtoms (n / 2) nodes := by
        rw [keptAtoms, keptFrom, keptFrom_succ]
        rfl
      rw [expand, getElem?_flatMap_pair (fun e => e) (Expansion.push atom), ih,
        countP_isOptional_optional, hkept]
      simp only [hhalf]
      split_ifs with hbit hlt
      · rw [Expansion.merge_cons]
        rfl
      · rfl
      · rfl
      · rfl

/-! Reading nodes directly -/

/-- A text is read by nodes one after the other: a literal reads its characters, a wildcard any
character, and an optional is present or absent. -/
inductive Reads : List Node → List Char → Prop
  | nil : Reads [] []
  | literal (chars : List Char) {nodes : List Node} {text : List Char} (rest : Reads nodes text) :
    Reads (.one (.literal chars) :: nodes) (chars ++ text)
  | wildcard (c : Char) {nodes : List Node} {text : List Char} (rest : Reads nodes text) :
    Reads (.one .wildcard :: nodes) (c :: text)
  | present {atom : Atom} {nodes : List Node} {text : List Char}
    (held : Reads (.one atom :: nodes) text) : Reads (.optional atom :: nodes) text
  | absent (atom : Atom) {nodes : List Node} {text : List Char} (rest : Reads nodes text) :
    Reads (.optional atom :: nodes) text

theorem Atom.strip?_literal_iff {chars text rest : List Char} :
    (Atom.literal chars).strip? text = some rest ↔ text = chars ++ rest := by
  rw [Atom.strip?_eq_some_iff]
  simp only [width, symbols]
  constructor
  · rintro ⟨hlen, hfits, rfl⟩
    rw [fits_literal (List.length_take_of_le hlen), beq_iff_eq] at hfits
    nth_rewrite 1 [← List.take_append_drop chars.length text]
    rw [hfits]
  · rintro rfl
    simp [fits_literal]

theorem reads_nil_iff {text : List Char} : Reads [] text ↔ text = [] := by
  constructor
  · rintro ⟨⟩
    rfl
  · rintro rfl
    exact .nil

theorem reads_one_iff {atom : Atom} {nodes : List Node} {text : List Char} :
    Reads (.one atom :: nodes) text ↔ ∃ rest, atom.strip? text = some rest ∧ Reads nodes rest := by
  cases atom with
  | literal chars =>
    simp only [Atom.strip?_literal_iff]
    constructor
    · rintro ⟨⟩
      exact ⟨_, rfl, ‹_›⟩
    · rintro ⟨rest, rfl, h⟩
      exact .literal chars h
  | wildcard =>
    constructor
    · rintro ⟨⟩
      exact ⟨_, rfl, ‹_›⟩
    · rintro ⟨rest, hstrip, h⟩
      cases text with
      | nil => contradiction
      | cons c text =>
        obtain rfl := Option.some.inj hstrip
        exact .wildcard c h

theorem reads_optional_iff {atom : Atom} {nodes : List Node} {text : List Char} :
    Reads (.optional atom :: nodes) text ↔ Reads (.one atom :: nodes) text ∨ Reads nodes text := by
  constructor
  · rintro (_ | _ | _ | h | h)
    · exact .inl h
    · exact .inr ‹_›
  · rintro (h | h)
    · exact .present h
    · exact .absent atom h

/-- Nodes read what some expansion matches to the end. -/
theorem reads_iff_reaches {nodes : List Node} {text : List Char} :
    Reads nodes text ↔ ∃ n, Reaches List.isEmpty nodes text n := by
  induction nodes generalizing text with
  | nil => simp [reads_nil_iff]
  | cons node nodes ih =>
    have one (atom : Atom) : Reads (.one atom :: nodes) text ↔
        ∃ n, Reaches List.isEmpty (.one atom :: nodes) text n := by
      simp only [reads_one_iff, reaches_one, ih]
      constructor
      · rintro ⟨rest, hstrip, k, hk⟩
        exact ⟨_, rest, hstrip, k, hk, rfl⟩
      · rintro ⟨n, rest, hstrip, k, hk, -⟩
        exact ⟨rest, hstrip, k, hk⟩
    cases node with
    | one atom => exact one atom
    | optional atom => simp only [reads_optional_iff, reaches_optional, one, ih, exists_or]

/-- An expansion matches a text from its start to its end. -/
theorem exists_reaches_isEmpty_iff {nodes : List Node} {text : List Char} :
    (∃ n, Reaches List.isEmpty nodes text n) ↔
      ∃ e ∈ expand nodes, e.width = text.length ∧ fits e.symbols text := by
  constructor
  · rintro ⟨n, e, he, rfl, ⟨hle, hfits⟩, hend⟩
    rw [List.isEmpty_iff, List.drop_eq_nil_iff] at hend
    rw [List.take_of_length_le hend] at hfits
    exact ⟨e, he, Nat.le_antisymm hle hend, hfits⟩
  · rintro ⟨e, he, hwidth, hfits⟩
    refine ⟨_, e, he, hwidth, ⟨Nat.le_of_eq hwidth, ?_⟩, by simp⟩
    rwa [List.take_of_length_le (Nat.le_of_eq hwidth.symm)]

/-- The expansions are numbered from zero. Number `n` keeps the optionals whose bits are set in it,
joins what then meets, and consumes as many characters as what it keeps. Taken together, the
expansions match the texts that the nodes read. -/
theorem expand_exact (nodes : List Node) :
    (expand nodes).length = 2 ^ nodes.countP Node.isOptional ∧
    (∀ n, (expand nodes)[n]? =
      if n < 2 ^ nodes.countP Node.isOptional then some (.merge (keptAtoms n nodes)) else none) ∧
    (∀ e ∈ expand nodes, e.Filled ∧ e.Apart) ∧
    (∀ n e, (expand nodes)[n]? = some e →
      e.width = ((keptAtoms n nodes).map Atom.width).sum) ∧
    ∀ text, (∃ e ∈ expand nodes, e.width = text.length ∧ fits e.symbols text) ↔
      Reads nodes text := by
  refine ⟨length_expand nodes, getElem?_expand nodes,
    fun e he => ⟨filled_of_mem_expand he, Expansion.apart_of_mem_expand he⟩, fun n e he => ?_,
    fun text => ?_⟩
  · rw [getElem?_expand, Option.ite_none_right_eq_some, Option.some.injEq] at he
    rw [← he.2, Expansion.width_merge]
  · rw [reads_iff_reaches, exists_reaches_isEmpty_iff]

/-- With the wildcard left out the two literals meet. -/
example : expand [.one (.literal ['a']), .optional .wildcard, .one (.literal ['b'])] =
    [[.literal ['a', 'b']], [.literal ['a'], .wildcard, .literal ['b']]] := rfl

end TermScan
