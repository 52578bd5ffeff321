import Mathlib.Data.List.Basic
import TermScan.Automaton.Walk

/-!
# Matching position by position

An expansion asks for one symbol after the other: a certain character, or any. This is what its
matches are, and what a walk along its atoms finds: a walk goes on as long as the characters fit
the positions read, and is completed at the last position.
-/
namespace TermScan

/-- What an atom asks for at each of its positions; a wildcard asks for nothing in particular. -/
def Atom.symbols : Atom → List (Option Char)
  | literal chars => chars.map some
  | wildcard => [none]

theorem Atom.length_symbols (a : Atom) : a.symbols.length = a.width := by
  cases a <;> simp [symbols, width]

/-- What an expansion asks for at each of its positions. -/
def Expansion.symbols (e : Expansion) : List (Option Char) := e.flatMap Atom.symbols

/-- The characters may stand at the first positions. -/
def fits : List (Option Char) → List Char → Bool
  | _, [] => true
  | [], _ :: _ => false
  | symbol :: symbols, c :: chars => symbol.all (· == c) && fits symbols chars

@[simp] theorem fits_nil_right (symbols : List (Option Char)) : fits symbols [] = true := by
  cases symbols <;> rfl

theorem fits_append {a b : List (Option Char)} {u w : List Char} (h : u.length = a.length) :
    fits (a ++ b) (u ++ w) = (fits a u && fits b w) := by
  induction a generalizing u with
  | nil => simp [List.eq_nil_of_length_eq_zero h]
  | cons symbol a ih =>
    cases u with
    | nil => simp at h
    | cons c u => simp [fits, ih (by simpa using h), Bool.and_assoc]

theorem fits_literal {chars u : List Char} (h : u.length = chars.length) :
    fits (chars.map some) u = (u == chars) := by
  induction chars generalizing u with
  | nil => simp [List.eq_nil_of_length_eq_zero h]
  | cons c chars ih =>
    cases u with
    | nil => simp at h
    | cons d u =>
      rw [List.map_cons, fits, ih (by simpa using h)]
      simp [BEq.comm (a := c)]

theorem length_le_of_fits {symbols : List (Option Char)} {chars : List Char}
    (h : fits symbols chars) : chars.length ≤ symbols.length := by
  fun_induction fits symbols chars with
  | case1 => simp
  | case2 => simp at h
  | case3 symbol symbols c chars ih =>
    rw [Bool.and_eq_true] at h
    simpa using ih h.2

namespace Expansion

@[simp] theorem symbols_cons (a : Atom) (e : Expansion) :
    symbols (a :: e) = a.symbols ++ symbols e := rfl

theorem length_symbols (e : Expansion) : e.symbols.length = e.width := by
  induction e with
  | nil => rfl
  | cons a e ih => rw [symbols_cons, List.length_append, Atom.length_symbols, ih, width]

/-- No literal is empty. -/
def Filled (e : Expansion) : Prop := ∀ a ∈ e, a ≠ .literal []

theorem filled_push {a : Atom} {e : Expansion} (h : e.Filled) : (e.push a).Filled := by
  unfold push
  split
  · exact h
  · rw [Filled, List.forall_mem_cons] at h ⊢
    exact ⟨by simp, h.2⟩
  · next hempty _ =>
    rw [Filled, List.forall_mem_cons]
    exact ⟨hempty, h⟩

theorem symbols_push (a : Atom) (e : Expansion) : (e.push a).symbols = a.symbols ++ e.symbols := by
  unfold push
  split
  · rfl
  · simp [Atom.symbols]
  · rfl

theorem width_push (a : Atom) (e : Expansion) : (e.push a).width = a.width + e.width := by
  rw [← length_symbols, symbols_push, List.length_append, Atom.length_symbols, length_symbols]

theorem symbols_eq (e : Expansion) : e.symbols = e.lead.map some ++ e.tail.symbols := by
  induction e with
  | nil => rfl
  | cons a e ih => cases a <;> simp [lead, tail, Atom.symbols, ih]

/-- A tail starts with a wildcard, which asks for a character. -/
theorem width_tail_pos {e : Expansion} (h : e.tail ≠ []) : 0 < e.tail.width := by
  induction e with
  | nil => exact absurd rfl h
  | cons a e ih =>
    cases a with
    | literal chars => exact ih h
    | wildcard =>
      simp only [Expansion.tail, width, Atom.width]
      omega

theorem Filled.tail {e : Expansion} (h : e.Filled) : e.tail.Filled := by
  induction e with
  | nil => exact h
  | cons a e ih =>
    cases a with
    | literal chars => exact ih fun b hb => h b (List.mem_cons_of_mem _ hb)
    | wildcard => exact h

end Expansion

/-! Reading along -/

/-- Reads one more character; a walk that has come to its end reads nothing more. -/
def Advance.next (a : Advance) (c : Char) : Advance :=
  match a with
  | proceed rest => rest.advance c
  | _ => discard

/-- What characters do to a walk that has an expansion left to read. -/
def Expansion.follow (e : Expansion) (chars : List Char) : Advance :=
  chars.foldl Advance.next (.proceed e)

/-- Where characters that fit leave a walk: `symbols` are left to read. -/
inductive Advance.Leaves (symbols : List (Option Char)) : Advance → Prop
  | complete (nothing : symbols = []) : Leaves symbols complete
  | proceed {rest : Expansion} (filled : rest.Filled) (left : rest.symbols = symbols)
    (more : symbols ≠ []) : Leaves symbols (proceed rest)

namespace Expansion

@[simp] theorem follow_nil (e : Expansion) : e.follow [] = .proceed e := rfl

theorem follow_cons (e : Expansion) (c : Char) (chars : List Char) :
    e.follow (c :: chars) = chars.foldl Advance.next (e.advance c) := rfl

theorem follow_concat (e : Expansion) (chars : List Char) (c : Char) :
    e.follow (chars ++ [c]) = (e.follow chars).next c := by simp [follow]

theorem foldl_next_discard (chars : List Char) :
    chars.foldl Advance.next .discard = .discard := by
  induction chars with
  | nil => rfl
  | cons c chars ih => exact ih

theorem Filled.symbols_ne_nil {e : Expansion} (h : e.Filled) (hne : e ≠ []) : e.symbols ≠ [] := by
  cases e with
  | nil => contradiction
  | cons a e =>
    cases a with
    | wildcard => simp [Atom.symbols]
    | literal chars =>
      have := h _ List.mem_cons_self
      simpa [Atom.symbols] using fun hnil => absurd (congrArg Atom.literal hnil) this

theorem Filled.leaves {e : Expansion} (h : e.Filled) :
    (Advance.ofRest e).Leaves e.symbols := by
  cases e with
  | nil => exact .complete rfl
  | cons a e => exact .proceed h rfl (h.symbols_ne_nil (by simp))

/-- A character is read against the first symbol. -/
theorem advance_spec {e : Expansion} (h : e.Filled) {symbol : Option Char}
    {rest : List (Option Char)} (hsymbols : e.symbols = symbol :: rest) (c : Char) :
    if symbol.all (· == c) then (e.advance c).Leaves rest else e.advance c = .discard := by
  cases e with
  | nil => simp [Expansion.symbols] at hsymbols
  | cons a e =>
    have filled : Filled e := fun b hb => h b (List.mem_cons_of_mem _ hb)
    cases a with
    | wildcard =>
      obtain ⟨rfl, rfl⟩ : none = symbol ∧ symbols e = rest := by
        simpa [Atom.symbols] using hsymbols
      exact filled.leaves
    | literal chars =>
      cases chars with
      | nil => exact absurd rfl (h _ List.mem_cons_self)
      | cons d chars =>
        obtain ⟨rfl, rfl⟩ : some d = symbol ∧ chars.map some ++ symbols e = rest := by
          simpa [Atom.symbols] using hsymbols
        rw [advance, Option.all_some]
        by_cases hd : c = d
        · rw [if_pos hd, if_pos (by simp [hd])]
          cases chars with
          | nil => exact filled.leaves
          | cons d' chars =>
            refine Filled.leaves (e := .literal (d' :: chars) :: e) fun b hb => ?_
            rcases List.mem_cons.mp hb with rfl | hb
            · simp
            · exact filled b hb
        · rw [if_neg hd, if_neg (by simpa using fun h => hd h.symm)]

/-- Reading along a filled expansion goes on, or comes to its end, as long as the characters
fit. -/
theorem follow_spec {e : Expansion} (h : e.Filled) (hne : e ≠ []) (chars : List Char) :
    if fits e.symbols chars then (e.follow chars).Leaves (e.symbols.drop chars.length)
    else e.follow chars = .discard := by
  induction chars generalizing e with
  | nil => simpa using Advance.Leaves.proceed h rfl (h.symbols_ne_nil hne)
  | cons c chars ih =>
    obtain ⟨symbol, rest, hsymbols⟩ := List.exists_cons_of_ne_nil (h.symbols_ne_nil hne)
    have hstep := advance_spec h hsymbols c
    rw [hsymbols, fits, List.length_cons, List.drop_succ_cons, follow_cons]
    by_cases hc : symbol.all (· == c)
    · rw [if_pos hc] at hstep
      rw [hc, Bool.true_and]
      cases hadvance : e.advance c with
      | discard => rw [hadvance] at hstep; cases hstep
      | complete =>
        rw [hadvance] at hstep
        obtain ⟨rfl⟩ := hstep
        cases chars with
        | nil => exact .complete rfl
        | cons c' chars => exact foldl_next_discard chars
      | proceed e' =>
        rw [hadvance] at hstep
        cases hstep with
        | proceed filled left more =>
          have := ih filled (by rintro rfl; exact more left.symm)
          rwa [left] at this
    · rw [if_neg hc] at hstep
      rw [hstep, foldl_next_discard]
      simp [hc]

/-- What has fitted as many characters as there are symbols is complete; with fewer it goes on. -/
theorem follow_cases {e : Expansion} (h : e.Filled) (hne : e ≠ []) (chars : List Char) :
    e.follow chars = .complete ∧ fits e.symbols chars ∧ chars.length = e.width ∨
      (∃ rest, e.follow chars = .proceed rest) ∧ fits e.symbols chars ∧ chars.length < e.width ∨
      e.follow chars = .discard ∧ ¬fits e.symbols chars := by
  have hspec := follow_spec h hne chars
  rw [← length_symbols]
  by_cases hfits : fits e.symbols chars
  · have hle := length_le_of_fits hfits
    rw [if_pos hfits] at hspec
    cases hfollow : e.follow chars with
    | discard => rw [hfollow] at hspec; cases hspec
    | complete =>
      rw [hfollow] at hspec
      obtain ⟨nothing⟩ := hspec
      rw [List.drop_eq_nil_iff] at nothing
      exact .inl ⟨rfl, hfits, by omega⟩
    | proceed rest =>
      rw [hfollow] at hspec
      obtain - | ⟨-, -, more⟩ := hspec
      rw [Ne, List.drop_eq_nil_iff] at more
      exact .inr (.inl ⟨⟨rest, rfl⟩, hfits, by omega⟩)
  · rw [if_neg hfits] at hspec
    exact .inr (.inr ⟨hspec, hfits⟩)

theorem follow_eq_complete_iff {e : Expansion} (h : e.Filled) (hne : e ≠ []) (chars : List Char) :
    e.follow chars = .complete ↔ fits e.symbols chars ∧ chars.length = e.width := by
  obtain ⟨h, h'⟩ | ⟨⟨rest, h⟩, -, hlt⟩ | ⟨h, h'⟩ := follow_cases h hne chars
  · simp [h, h']
  · simpa [h] using fun _ => Nat.ne_of_lt hlt
  · simp [h, h']

theorem follow_eq_proceed_iff {e : Expansion} (h : e.Filled) (hne : e ≠ []) (chars : List Char) :
    (∃ rest, e.follow chars = .proceed rest) ↔
      fits e.symbols chars ∧ chars.length < e.width := by
  obtain ⟨h, -, hlen⟩ | ⟨⟨rest, h⟩, h'⟩ | ⟨h, h'⟩ := follow_cases h hne chars
  · simpa [h] using fun _ => Nat.le_of_eq hlen.symm
  · simp [h, h']
  · simp [h, h']

end Expansion

/-- What holds of nothing, and of what is pushed onto something it holds of, holds of expansions. -/
theorem expand_induction {motive : Expansion → Prop} (nil : motive [])
    (push : ∀ (a : Atom) (e : Expansion), motive e → motive (e.push a)) {nodes : List Node}
    {e : Expansion} (h : e ∈ expand nodes) : motive e := by
  induction nodes generalizing e with
  | nil =>
    obtain rfl := List.mem_singleton.mp h
    exact nil
  | cons n nodes ih =>
    cases n with
    | one a =>
      obtain ⟨e, he, rfl⟩ := List.mem_map.mp h
      exact push a e (ih he)
    | optional a =>
      obtain ⟨e, he, hmem⟩ := List.mem_flatMap.mp h
      rcases List.mem_pair.mp hmem with rfl | rfl
      · exact ih he
      · exact push a e (ih he)

theorem filled_of_mem_expand {nodes : List Node} {e : Expansion} (h : e ∈ expand nodes) :
    e.Filled :=
  expand_induction (by simp [Expansion.Filled]) (fun _ _ => Expansion.filled_push) h

end TermScan
