import Mathlib.Data.List.Lex
import Mathlib.Order.Bounds.Basic
import TermScan.Proofs.Pattern.Preference

/-!
# Choices of optionals

A choice says of each optional, from the left, whether it is present. Compared position by position,
with presence above absence, the greatest choice that leads to a match is the one a pattern prefers.
-/
namespace TermScan

/-- The expansion that a choice of optionals stands for. An optional without a choice is absent. -/
def choose : List Node → List Bool → Expansion
  | [], _ => []
  | .one atom :: nodes, choices => (choose nodes choices).push atom
  | .optional atom :: nodes, present :: choices =>
    if present then (choose nodes choices).push atom else choose nodes choices
  | .optional _ :: nodes, [] => choose nodes []

@[simp] theorem countP_isOptional_one (atom : Atom) (nodes : List Node) :
    (Node.one atom :: nodes).countP Node.isOptional = nodes.countP Node.isOptional := by
  simp [Node.isOptional]

@[simp] theorem countP_isOptional_optional (atom : Atom) (nodes : List Node) :
    (Node.optional atom :: nodes).countP Node.isOptional = nodes.countP Node.isOptional + 1 :=
  List.countP_cons_of_pos rfl

/-- The expansions are those that choices stand for, with one choice for each optional. -/
theorem mem_expand_iff {nodes : List Node} {e : Expansion} :
    e ∈ expand nodes ↔
      ∃ choices : List Bool, choices.length = nodes.countP Node.isOptional ∧
        choose nodes choices = e := by
  induction nodes generalizing e with
  | nil => simp [expand, choose, eq_comm]
  | cons node nodes ih =>
    cases node with
    | one atom =>
      rw [expand, List.mem_map, countP_isOptional_one]
      constructor
      · rintro ⟨e, he, rfl⟩
        obtain ⟨choices, hlength, rfl⟩ := ih.mp he
        exact ⟨choices, hlength, rfl⟩
      · rintro ⟨choices, hlength, rfl⟩
        exact ⟨choose nodes choices, ih.mpr ⟨choices, hlength, rfl⟩, rfl⟩
    | optional atom =>
      rw [expand, List.mem_flatMap, countP_isOptional_optional]
      constructor
      · rintro ⟨e', he, hmem⟩
        obtain ⟨choices, hlength, rfl⟩ := ih.mp he
        rcases List.mem_pair.mp hmem with rfl | rfl
        · exact ⟨false :: choices, by rw [List.length_cons, hlength], rfl⟩
        · exact ⟨true :: choices, by rw [List.length_cons, hlength], rfl⟩
      · rintro ⟨choices, hlength, rfl⟩
        obtain ⟨present, choices, rfl⟩ := List.exists_cons_of_length_eq_add_one hlength
        refine ⟨choose nodes choices, ih.mpr ⟨choices, Nat.succ.inj hlength, rfl⟩, ?_⟩
        cases present
        · exact List.mem_pair.mpr (.inl rfl)
        · exact List.mem_pair.mpr (.inr rfl)

/-- With a choice of its optionals nodes match at the start of a text, and the text left behind is
accepted. -/
structure Chooses (accepts : List Char → Bool) (nodes : List Node) (text : List Char)
    (choices : List Bool) : Prop where
  length_eq : choices.length = nodes.countP Node.isOptional
  heads : (choose nodes choices).Heads text
  accepts : accepts (text.drop (choose nodes choices).width)

section Chooses

variable {accepts : List Char → Bool} {atom : Atom} {nodes : List Node} {text : List Char}
  {choices : List Bool}

theorem chooses_nil : Chooses accepts [] text choices ↔ choices = [] ∧ accepts text := by
  constructor
  · intro h
    exact ⟨List.eq_nil_of_length_eq_zero h.length_eq, h.accepts⟩
  · rintro ⟨rfl, h⟩
    exact ⟨rfl, Expansion.heads_nil text, h⟩

theorem chooses_one : Chooses accepts (.one atom :: nodes) text choices ↔
    ∃ rest, atom.strip? text = some rest ∧ Chooses accepts nodes rest choices := by
  have hwidth : (choose (.one atom :: nodes) choices).width =
      atom.width + (choose nodes choices).width := Expansion.width_push _ _
  constructor
  · intro h
    obtain ⟨rest, hstrip, hheads⟩ := Expansion.heads_push_iff.mp h.heads
    have haccepts := h.accepts
    rw [hwidth, ← List.drop_drop, ← Atom.eq_drop_of_strip? hstrip] at haccepts
    exact ⟨rest, hstrip, h.length_eq.trans (countP_isOptional_one atom nodes), hheads, haccepts⟩
  · rintro ⟨rest, hstrip, h⟩
    have haccepts := h.accepts
    rw [Atom.eq_drop_of_strip? hstrip, List.drop_drop, ← hwidth] at haccepts
    exact ⟨h.length_eq.trans (countP_isOptional_one atom nodes).symm,
      Expansion.heads_push_iff.mpr ⟨rest, hstrip, h.heads⟩, haccepts⟩

theorem chooses_present : Chooses accepts (.optional atom :: nodes) text (true :: choices) ↔
    Chooses accepts (.one atom :: nodes) text choices := by
  constructor
  · intro h
    have hlength := h.length_eq
    rw [countP_isOptional_optional, List.length_cons] at hlength
    exact ⟨by simpa using hlength, h.heads, h.accepts⟩
  · intro h
    have hlength := h.length_eq
    rw [countP_isOptional_one] at hlength
    exact ⟨by simpa using hlength, h.heads, h.accepts⟩

theorem chooses_absent : Chooses accepts (.optional atom :: nodes) text (false :: choices) ↔
    Chooses accepts nodes text choices := by
  constructor
  · intro h
    have hlength := h.length_eq
    rw [countP_isOptional_optional, List.length_cons] at hlength
    exact ⟨by simpa using hlength, h.heads, h.accepts⟩
  · intro h
    exact ⟨by simpa using h.length_eq, h.heads, h.accepts⟩

theorem Chooses.exists_cons (h : Chooses accepts (.optional atom :: nodes) text choices) :
    ∃ present rest, choices = present :: rest :=
  List.exists_cons_of_length_eq_add_one (h.length_eq.trans (countP_isOptional_optional atom nodes))

theorem Chooses.reaches (h : Chooses accepts nodes text choices) :
    Reaches accepts nodes text (choose nodes choices).width :=
  ⟨_, mem_expand_iff.mpr ⟨choices, h.length_eq, rfl⟩, rfl, h.heads, h.accepts⟩

end Chooses

/-- A preferred match comes from a choice that no other one that leads to a match exceeds. -/
theorem exists_isGreatest_of_preferredLength? {accepts : List Char → Bool} {nodes : List Node}
    {text : List Char} {n : Nat} (h : preferredLength? accepts nodes text = some n) :
    ∃ choices, IsGreatest {c | Chooses accepts nodes text c} choices ∧
      (choose nodes choices).width = n := by
  induction nodes generalizing text n with
  | nil =>
    rw [preferredLength?, Option.ite_none_right_eq_some] at h
    refine ⟨[], ⟨chooses_nil.mpr ⟨rfl, h.1⟩, fun c hc => ?_⟩, Option.some.inj h.2⟩
    rw [(chooses_nil.mp hc).1]
  | cons node nodes ih =>
    have present {atom : Atom} {n : Nat}
        (h : preferredLength? accepts (.one atom :: nodes) text = some n) :
        ∃ choices, IsGreatest {c | Chooses accepts (.one atom :: nodes) text c} choices ∧
          (choose (.one atom :: nodes) choices).width = n := by
      rw [preferredLength?, Option.map_eq_some_iff] at h
      obtain ⟨k, hk, rfl⟩ := h
      obtain ⟨rest, hstrip, hrest⟩ := Option.bind_eq_some_iff.mp hk
      obtain ⟨choices, ⟨hchoices, hgreatest⟩, rfl⟩ := ih hrest
      refine ⟨choices, ⟨chooses_one.mpr ⟨rest, hstrip, hchoices⟩, fun c hc => ?_⟩,
        Expansion.width_push _ _⟩
      obtain ⟨rest', hstrip', hc⟩ := chooses_one.mp hc
      obtain rfl : rest' = rest := Option.some.inj (hstrip'.symm.trans hstrip)
      exact hgreatest hc
    cases node with
    | one atom => exact present h
    | optional atom =>
      rw [preferredLength?] at h
      split at h
      · next k hk =>
        obtain rfl := Option.some.inj h
        obtain ⟨choices, ⟨hchoices, hgreatest⟩, rfl⟩ := present hk
        refine ⟨true :: choices, ⟨chooses_present.mpr hchoices, fun c hc => ?_⟩, rfl⟩
        obtain ⟨first, c, rfl⟩ := Chooses.exists_cons hc
        cases first with
        | false => exact (List.cons_lt_cons_iff.mpr (.inl rfl)).le
        | true => exact List.cons_le_cons true (hgreatest (chooses_present.mp hc))
      · next hk =>
        obtain ⟨choices, ⟨hchoices, hgreatest⟩, hwidth⟩ := ih h
        refine ⟨false :: choices, ⟨chooses_absent.mpr hchoices, fun c hc => ?_⟩, hwidth⟩
        obtain ⟨first, c, rfl⟩ := Chooses.exists_cons hc
        cases first with
        | false => exact List.cons_le_cons false (hgreatest (chooses_absent.mp hc))
        | true =>
          have hsome := preferredLength?_isSome (chooses_present.mp hc).reaches
          rw [preferredLength?, hk] at hsome
          contradiction

/-- A preferred match is a match of an expansion. -/
theorem reaches_of_preferredLength? {accepts : List Char → Bool} {nodes : List Node}
    {text : List Char} {n : Nat} (h : preferredLength? accepts nodes text = some n) :
    Reaches accepts nodes text n := by
  obtain ⟨choices, hgreatest, rfl⟩ := exists_isGreatest_of_preferredLength? h
  exact hgreatest.1.reaches

/-- The preferred match is the one of the greatest choice that leads to a match. -/
theorem preferredLength?_eq_some_iff {accepts : List Char → Bool} {nodes : List Node}
    {text : List Char} {n : Nat} :
    preferredLength? accepts nodes text = some n ↔
      ∃ choices, IsGreatest {c | Chooses accepts nodes text c} choices ∧
        (choose nodes choices).width = n := by
  refine ⟨exists_isGreatest_of_preferredLength?, ?_⟩
  rintro ⟨choices, hgreatest, rfl⟩
  have hchoices : Chooses accepts nodes text choices := hgreatest.1
  obtain ⟨k, hk⟩ := Option.isSome_iff_exists.mp (preferredLength?_isSome hchoices.reaches)
  obtain ⟨choices', hgreatest', rfl⟩ := exists_isGreatest_of_preferredLength? hk
  rw [hk, hgreatest'.unique hgreatest]

end TermScan
