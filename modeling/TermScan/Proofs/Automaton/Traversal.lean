import TermScan.Automaton.Traversal
import TermScan.Proofs.Automaton.Builder

/-!
# Traversals accept their fork

What a traversal has not read is a list of atoms, as a walk keeps it. A character does to the
traversal what it does to that list, so the answers are those of a walk: go on as long as the
characters fit, and be complete at the last position.
-/
namespace TermScan

namespace Traversal

variable {atoms : Expansion} {t : Traversal} {c : Char}

/-- What has not been read. -/
def unread (atoms : Expansion) (t : Traversal) : Expansion :=
  match atoms.drop t.atom with
  | .literal chars :: rest => .literal (chars.drop t.offset) :: rest
  | rest => rest

/-- The traversal stands at a position of an atom. A wildcard has one position, so there the offset
is 0. -/
def Within (atoms : Expansion) (t : Traversal) : Prop :=
  ∃ h : t.atom < atoms.length, t.offset < atoms[t.atom].width

/-- What a step has to do to a traversal, told by what a character does to a walk. -/
def StepsTo (atoms : Expansion) (step : Answer × Traversal) : Advance → Prop
  | .complete => step.1 = .complete
  | .discard => step.1 = .discard
  | .proceed rest => step.1 = .proceed ∧ step.2.Within atoms ∧ step.2.unread atoms = rest

theorem width_pos_of_filled (filled : atoms.Filled) {a : Atom} (ha : a ∈ atoms) : 0 < a.width := by
  cases a with
  | wildcard => exact Nat.one_pos
  | literal chars =>
    refine List.length_pos_iff.mpr fun h => ?_
    rw [h] at ha
    exact filled _ ha rfl

/-- At the start of an atom nothing of it, nor of those after it, has been read. -/
theorem unread_of_offset (h : t.offset = 0) : t.unread atoms = atoms.drop t.atom := by
  unfold unread
  split
  · next heq => rw [h, heq, List.drop_zero]
  · rfl

/-- At the start of a fork nothing has been read. -/
theorem unread_start (atoms : Expansion) (fork : Nat) : (start fork).unread atoms = atoms :=
  unread_of_offset rfl

theorem within_start (hne : atoms ≠ []) (filled : atoms.Filled) (fork : Nat) :
    (start fork).Within atoms := by
  have hlength : 0 < atoms.length := List.length_pos_iff.mpr hne
  exact ⟨hlength, width_pos_of_filled filled (List.getElem_mem hlength)⟩

/-- A traversal that has come to the end of an atom is complete if it was the last. -/
theorem stepsTo_border (filled : atoms.Filled) (hatom : t.atom ≤ atoms.length)
    (hoffset : t.offset = 0) :
    StepsTo atoms (if t.atom = atoms.length then .complete else .proceed, t)
      (.ofRest (atoms.drop t.atom)) := by
  by_cases hlast : t.atom = atoms.length
  · rw [if_pos hlast, hlast, List.drop_length]
    rfl
  · have hlt : t.atom < atoms.length := by omega
    have hpos := width_pos_of_filled filled (List.getElem_mem hlt)
    rw [if_neg hlast, List.drop_eq_getElem_cons hlt]
    exact ⟨rfl, ⟨hlt, hoffset ▸ hpos⟩, by
      rw [unread_of_offset hoffset, List.drop_eq_getElem_cons hlt]⟩

/-- Inside a literal, what is left of it has not been read, nor the atoms after it. -/
theorem unread_of_literal {chars : List Char} (hatom : t.atom < atoms.length)
    (hkind : atoms[t.atom] = .literal chars) :
    t.unread atoms = .literal (chars.drop t.offset) :: atoms.drop (t.atom + 1) := by
  rw [unread, List.drop_eq_getElem_cons hatom, hkind]

/-- A traversal stays on its fork. -/
theorem fork_advance (atoms : Expansion) (c : Char) (t : Traversal) :
    (t.advance atoms c).2.fork = t.fork := by
  rw [advance]
  cases hforward : t.forward? atoms c with
  | none => rfl
  | some s =>
    rw [forward?] at hforward
    grind

/-- One character does to a traversal what it does to a walk. -/
theorem advance_spec (filled : atoms.Filled) (within : t.Within atoms) (c : Char) :
    StepsTo atoms (t.advance atoms c) ((t.unread atoms).advance c) := by
  obtain ⟨hatom, hoffset⟩ := within
  have hget := List.getElem?_eq_getElem hatom
  rw [advance, forward?, hget]
  cases hkind : atoms[t.atom] with
  | wildcard =>
    rw [hkind] at hoffset
    have hzero : t.offset = 0 := Nat.lt_one_iff.mp hoffset
    rw [unread_of_offset hzero, List.drop_eq_getElem_cons hatom, hkind]
    exact stepsTo_border (t := { t with atom := t.atom + 1 }) filled hatom hzero
  | literal chars =>
    rw [hkind] at hoffset
    have hlt : t.offset < chars.length := hoffset
    have hfits : chars[t.offset]? = some c ↔ c = chars[t.offset] := by
      rw [List.getElem?_eq_getElem hlt, Option.some_inj, eq_comm]
    rw [unread_of_literal hatom hkind, List.drop_eq_getElem_cons hlt, Expansion.advance]
    by_cases hc : c = chars[t.offset]
    · simp only [if_pos (hfits.mpr hc), if_pos hc]
      by_cases hlast : t.offset + 1 = chars.length
      · rw [if_pos hlast, List.drop_eq_nil_of_le hlast.ge]
        exact stepsTo_border (t := { t with atom := t.atom + 1, offset := 0 }) filled hatom rfl
      · have hmore : t.offset + 1 < chars.length := by omega
        have hrest : (chars.drop (t.offset + 1)).isEmpty = false := by
          rw [List.isEmpty_eq_false_iff, Ne, List.drop_eq_nil_iff]
          omega
        rw [if_neg hlast, hrest]
        simp only [if_neg hatom.ne]
        refine ⟨rfl, ⟨hatom, ?_⟩, unread_of_literal hatom hkind⟩
        show t.offset + 1 < atoms[t.atom].width
        rw [hkind]
        exact hmore
    · simp only [if_neg (hfits.not.mpr hc), if_neg hc]
      rfl

/-! Reading -/

theorem read_cons_of_proceed {s : Traversal} (h : t.advance atoms c = (.proceed, s))
    (rest : List Char) :
    t.read atoms (c :: rest) = (.proceed :: (s.read atoms rest).1, (s.read atoms rest).2) := by
  rw [read, h]

/-- Any other answer is the last. -/
theorem read_cons_of_last {answer : Answer} (h : (t.advance atoms c).1 = answer)
    (hlast : answer ≠ .proceed) (rest : List Char) : (t.read atoms (c :: rest)).1 = [answer] := by
  rw [read]
  split
  · next heq => rw [heq] at h; exact absurd h.symm hlast
  · next heq => rw [← h, heq]

/-- Characters that a walk goes on with are read one by one. -/
theorem read_of_follow (filled : atoms.Filled) (within : t.Within atoms) {u : List Char}
    {rest : Expansion} (h : (t.unread atoms).follow u = .proceed rest) (w : List Char) :
    ∃ s : Traversal, s.Within atoms ∧ s.unread atoms = rest ∧ t.read atoms (u ++ w) =
      (List.replicate u.length .proceed ++ (s.read atoms w).1, (s.read atoms w).2) := by
  induction u generalizing t with
  | nil =>
    obtain rfl : t.unread atoms = rest := by simpa using h
    exact ⟨t, within, rfl, rfl⟩
  | cons c u ih =>
    have hstep := advance_spec filled within c
    rw [Expansion.follow_cons] at h
    cases hadvance : (t.unread atoms).advance c with
    | discard => rw [hadvance, Expansion.foldl_next_discard] at h; contradiction
    | complete =>
      rw [hadvance] at h
      cases u with
      | nil => contradiction
      | cons c' u =>
        have hover : u.foldl Advance.next .discard = .proceed rest := h
        rw [Expansion.foldl_next_discard] at hover
        contradiction
    | proceed rest' =>
      rw [hadvance] at hstep h
      obtain ⟨hanswer, hwithin, hunread⟩ := hstep
      obtain ⟨s, hs, hrest, hread⟩ := ih hwithin (by rw [hunread]; exact h)
      refine ⟨s, hs, hrest, ?_⟩
      rw [List.cons_append, read_cons_of_proceed (Prod.ext hanswer rfl), hread]
      rfl

/-- After characters that a walk goes on with, a character that ends the walk is the last. -/
theorem read_last (filled : atoms.Filled) (within : t.Within atoms) {u : List Char}
    {rest : Expansion} (h : (t.unread atoms).follow u = .proceed rest) {answer : Answer}
    (hstep : ∀ step, StepsTo atoms step (rest.advance c) → step.1 = answer)
    (hlast : answer ≠ .proceed) (later : List Char) :
    (t.read atoms (u ++ c :: later)).1 = List.replicate u.length .proceed ++ [answer] := by
  obtain ⟨s, hs, hrest, hread⟩ := read_of_follow filled within h (c :: later)
  have hanswer := hstep _ (hrest ▸ advance_spec filled hs c)
  rw [hread, read_cons_of_last hanswer hlast]

/-! Whole forks -/

/-- The answers of a traversal along non-empty atoms. -/
structure Exact (atoms : Expansion) (fork : Nat) : Prop where
  /-- While fewer characters have been read than there are positions, and all fit, it goes on, and
  stands at a position of an atom. -/
  proceed : ∀ chars, fits atoms.symbols chars → chars.length < atoms.width →
    ∃ t, (start fork).read atoms chars = (List.replicate chars.length .proceed, t) ∧
      t.Within atoms
  /-- It is complete at the character that fits the last position. -/
  complete : ∀ chars later, fits atoms.symbols chars → chars.length = atoms.width →
    ((start fork).read atoms (chars ++ later)).1 =
      List.replicate (atoms.width - 1) .proceed ++ [.complete]
  /-- It is to be dropped at the first character that does not fit. -/
  discard : ∀ chars c later, fits atoms.symbols chars → chars.length < atoms.width →
    ¬fits atoms.symbols (chars ++ [c]) →
    ((start fork).read atoms (chars ++ c :: later)).1 =
      List.replicate chars.length .proceed ++ [.discard]

theorem exact_of_filled (hne : atoms ≠ []) (filled : atoms.Filled) (fork : Nat) :
    Exact atoms fork := by
  have within := within_start hne filled fork
  have hunread := unread_start atoms fork
  refine ⟨fun chars hfits hlt => ?_, fun chars later hfits hwidth => ?_,
    fun chars c later hfits hlt hnot => ?_⟩
  · obtain ⟨rest, hfollow⟩ :=
      (Expansion.follow_eq_proceed_iff filled hne chars).mpr ⟨hfits, hlt⟩
    obtain ⟨s, hs, -, hread⟩ := read_of_follow filled within (by rwa [hunread]) []
    exact ⟨s, by simpa [read] using hread, hs⟩
  · have hfollow := (Expansion.follow_eq_complete_iff filled hne chars).mpr ⟨hfits, hwidth⟩
    rcases List.eq_nil_or_concat chars with rfl | ⟨u, c, rfl⟩
    · contradiction
    · -- a walk that is completed by the last character has gone on before
      rw [List.concat_eq_append, Expansion.follow_concat] at hfollow
      cases hbefore : atoms.follow u with
      | complete => rw [hbefore] at hfollow; contradiction
      | discard => rw [hbefore] at hfollow; contradiction
      | proceed rest =>
        rw [hbefore, Advance.next] at hfollow
        have hread := read_last filled within (by rwa [hunread])
          (fun step h => by rwa [hfollow] at h) (by simp) later
        rw [← hwidth, List.concat_eq_append, List.append_assoc]
        simpa using hread
  · obtain ⟨rest, hbefore⟩ :=
      (Expansion.follow_eq_proceed_iff filled hne chars).mpr ⟨hfits, hlt⟩
    have hfollow : atoms.follow (chars ++ [c]) = .discard := by
      have hspec := Expansion.follow_spec filled hne (chars ++ [c])
      rwa [if_neg hnot] at hspec
    rw [Expansion.follow_concat, hbefore, Advance.next] at hfollow
    exact read_last filled within (by rwa [hunread]) (fun step h => by rwa [hfollow] at h)
      (by simp) later

/-- Along non-empty atoms a traversal accepts what fits all positions, and nothing else. All forks
of terms have such atoms, and with the lead they are as long as their variant. -/
theorem traversals_exact :
    (∀ (atoms : Expansion) (fork : Nat), atoms ≠ [] → atoms.Filled → Exact atoms fork) ∧
      ∀ terms : List Term, ∀ r ∈ (Builder.ofTerms terms).forks, r.tail ≠ [] ∧ r.tail.Filled ∧
        ∃ v, (Builder.ofTerms terms).variants[r.variant]? = some v ∧
          r.leadLength + r.tail.width = v.width := by
  refine ⟨fun atoms fork hne filled => exact_of_filled hne filled fork, fun terms r hr => ?_⟩
  obtain ⟨v, hv, hforks, hget, hlead, htail⟩ := (Builder.holds_ofVariants _).mem_forks hr
  obtain ⟨t, -, e, he, rfl⟩ := Variant.mem_ofTerms_iff.mp hv
  rw [Variant.isLiteral_iff] at hforks
  rw [htail, hlead]
  exact ⟨hforks, (filled_of_mem_expand he).tail, _, hget, (Variant.width_eq _).symm⟩

/-- Along `?cd`, which is the fork of `a?cd`. -/
theorem traversals_exact_sample :
    let atoms : Expansion := [.wildcard, .literal ['c', 'd']]
    let b := Builder.ofTerms
      [⟨7, ⟨false, false, [.one (.literal ['a']), .one .wildcard, .one (.literal ['c', 'd'])]⟩⟩]
    Exact atoms 0 ∧
      ((start 0).read atoms ['x', 'c', 'd', '!']).1 = [.proceed, .proceed, .complete] ∧
      ((start 0).read atoms ['x', 'c', 'x', '!']).1 = [.proceed, .proceed, .discard] ∧
      ∃ r ∈ b.forks, r.tail = atoms ∧ r.leadLength = 1 ∧ Exact r.tail 0 ∧
        ∃ v, b.variants[r.variant]? = some v ∧ r.leadLength + r.tail.width = v.width := by
  intro atoms b
  have exact := traversals_exact.1 atoms 0 (by decide)
    (by simp [atoms, Expansion.Filled])
  have hforks : b.forks = #[⟨0, 1, false, false, atoms⟩] := by
    rw [show b = Builder.ofVariants _ from rfl, List.flatMap_singleton, Variant.ofTerm_eq]
    decide +kernel
  have hmem : ⟨0, 1, false, false, atoms⟩ ∈ b.forks := by simp [hforks]
  obtain ⟨hne, filled, v, hv, hwidth⟩ := traversals_exact.2 _ _ hmem
  exact ⟨exact, exact.complete ['x', 'c', 'd'] ['!'] (by decide) (by decide),
    exact.discard ['x', 'c'] 'x' ['!'] (by decide) (by decide) (by decide),
    _, hmem, rfl, rfl, traversals_exact.1 _ 0 hne filled, v, hv, hwidth⟩

end Traversal

end TermScan
