import TermScan.Pattern.Preference
import TermScan.Proofs.Pattern.Matching

/-!
# Preferred matches and expansions

A match of an expansion is one of its first atom and one of the rest of it. Wherever some expansion
of its nodes matches, a pattern has a preferred match.
-/
namespace TermScan

/-- Stripping an atom is splitting a text behind what fits the atom. -/
theorem Atom.strip?_eq_some_iff {a : Atom} {text rest : List Char} :
    a.strip? text = some rest ↔
      a.width ≤ text.length ∧ fits a.symbols (text.take a.width) ∧ text.drop a.width = rest := by
  fun_induction Atom.strip? a text with
  | case1 c text => simp [width, symbols, fits]
  | case2 => simp [width]
  | case3 text => simp [width, symbols]
  | case4 c cs => simp [width]
  | case5 cs c text ih => simpa [width, symbols, fits] using ih
  | case6 c cs d text hne =>
    simp only [width, symbols, List.length_cons, List.map_cons, List.take_succ_cons, fits]
    simp [hne]

namespace Expansion

/-- A text starts with a match of an expansion. -/
def Heads (e : Expansion) (text : List Char) : Prop :=
  e.width ≤ text.length ∧ fits e.symbols (text.take e.width)

@[simp] theorem heads_nil (text : List Char) : Heads [] text := by simp [Heads, width]

/-- A match of an expansion with an atom in front is one of the atom and one of the rest. -/
theorem heads_push_iff {a : Atom} {e : Expansion} {text : List Char} :
    (e.push a).Heads text ↔ ∃ rest, a.strip? text = some rest ∧ e.Heads rest := by
  have hfits (hlen : a.width ≤ text.length) :
      fits (a.symbols ++ e.symbols) (text.take (a.width + e.width)) =
        (fits a.symbols (text.take a.width) &&
          fits e.symbols ((text.drop a.width).take e.width)) := by
    rw [List.take_add, fits_append (by rw [List.length_take, Atom.length_symbols]; omega)]
  simp only [Heads, width_push, symbols_push, Atom.strip?_eq_some_iff]
  constructor
  · rintro ⟨hlen, h⟩
    rw [hfits (by omega), Bool.and_eq_true] at h
    exact ⟨_, ⟨by omega, h.1, rfl⟩, by rw [List.length_drop]; omega, h.2⟩
  · rintro ⟨rest, ⟨hlen, hatom, rfl⟩, hrest, h⟩
    rw [List.length_drop] at hrest
    rw [hfits hlen, Bool.and_eq_true]
    exact ⟨by omega, hatom, h⟩

end Expansion

/-- An expansion of nodes matches at the start of a text, and the text left behind is accepted. -/
def Reaches (accepts : List Char → Bool) (nodes : List Node) (text : List Char) (n : Nat) : Prop :=
  ∃ e ∈ expand nodes, e.width = n ∧ e.Heads text ∧ accepts (text.drop n)

section Reaches

variable {accepts : List Char → Bool} {atom : Atom} {nodes : List Node} {text : List Char}

@[simp] theorem reaches_nil {n : Nat} : Reaches accepts [] text n ↔ n = 0 ∧ accepts text := by
  simp only [Reaches, expand, List.mem_singleton, exists_eq_left, Expansion.heads_nil, true_and]
  constructor
  · rintro ⟨rfl, h⟩
    exact ⟨rfl, h⟩
  · rintro ⟨rfl, h⟩
    exact ⟨rfl, h⟩

theorem reaches_one {n : Nat} : Reaches accepts (.one atom :: nodes) text n ↔
    ∃ rest, atom.strip? text = some rest ∧ ∃ k, Reaches accepts nodes rest k ∧
      atom.width + k = n := by
  simp only [Reaches, expand, List.mem_map, exists_exists_and_eq_and, Expansion.width_push,
    Expansion.heads_push_iff]
  constructor
  · rintro ⟨e, he, rfl, ⟨rest, hstrip, hheads⟩, haccepts⟩
    rw [← List.drop_drop, ← Atom.eq_drop_of_strip? hstrip] at haccepts
    exact ⟨rest, hstrip, _, ⟨e, he, rfl, hheads, haccepts⟩, rfl⟩
  · rintro ⟨rest, hstrip, _, ⟨e, he, rfl, hheads, haccepts⟩, rfl⟩
    rw [Atom.eq_drop_of_strip? hstrip, List.drop_drop] at haccepts
    exact ⟨e, he, rfl, ⟨rest, hstrip, hheads⟩, haccepts⟩

theorem reaches_optional {n : Nat} : Reaches accepts (.optional atom :: nodes) text n ↔
    Reaches accepts (.one atom :: nodes) text n ∨ Reaches accepts nodes text n := by
  simp only [Reaches, expand, List.mem_flatMap, List.mem_map]
  constructor
  · rintro ⟨e, ⟨e', he', hmem⟩, h⟩
    rcases List.mem_pair.mp hmem with rfl | rfl
    · exact .inr ⟨e, he', h⟩
    · exact .inl ⟨_, ⟨e', he', rfl⟩, h⟩
  · rintro (⟨e, ⟨e', he', rfl⟩, h⟩ | ⟨e, he, h⟩)
    · exact ⟨_, ⟨e', he', List.mem_pair.mpr (.inr rfl)⟩, h⟩
    · exact ⟨e, ⟨e, he, List.mem_pair.mpr (.inl rfl)⟩, h⟩

end Reaches

/-- Where an expansion matches, there is a preferred match. -/
theorem preferredLength?_isSome {accepts : List Char → Bool} {nodes : List Node}
    {text : List Char} {n : Nat} (h : Reaches accepts nodes text n) :
    (preferredLength? accepts nodes text).isSome := by
  induction nodes generalizing text n with
  | nil =>
    rw [preferredLength?, if_pos (reaches_nil.mp h).2]
    rfl
  | cons node nodes ih =>
    have present {atom : Atom} {n : Nat} (h : Reaches accepts (.one atom :: nodes) text n) :
        (((atom.strip? text).bind (preferredLength? accepts nodes)).map
          (atom.width + ·)).isSome := by
      obtain ⟨rest, hstrip, k, hrest, -⟩ := reaches_one.mp h
      rw [hstrip, Option.bind_some, Option.isSome_map]
      exact ih hrest
    cases node with
    | one atom => exact present h
    | optional atom =>
      rw [preferredLength?]
      rcases reaches_optional.mp h with h | h
      · obtain ⟨k, hk⟩ := Option.isSome_iff_exists.mp (present h)
        rw [hk]
        rfl
      · split
        · rfl
        · exact ih h

end TermScan
