import Std.Data.HashSet

/-!
# Lists without repetitions

Of the items of a list that share a key only the first is kept. A search that cannot tell such
items apart finds the same in what remains.
-/
namespace TermScan

variable {α κ : Type} [BEq κ] [Hashable κ]

/-- The items whose keys are not among those seen, each key at its first place. -/
def distinctFrom (key : α → κ) (seen : Std.HashSet κ) : List α → List α
  | [] => []
  | a :: rest =>
    if seen.contains (key a) then distinctFrom key seen rest
    else a :: distinctFrom key (seen.insert (key a)) rest

/-- The items of a list, each key at its first place. -/
def distinctBy (key : α → κ) (items : List α) : List α := distinctFrom key ∅ items

theorem mem_of_mem_distinctFrom {key : α → κ} {seen : Std.HashSet κ} {items : List α} {a : α}
    (h : a ∈ distinctFrom key seen items) : a ∈ items := by
  fun_induction distinctFrom key seen items with
  | case1 => exact h
  | case2 seen b rest _ ih => exact List.mem_cons_of_mem b (ih h)
  | case3 seen b rest _ ih =>
    cases List.mem_cons.mp h with
    | inl equal => exact equal ▸ List.mem_cons_self
    | inr h => exact List.mem_cons_of_mem b (ih h)

theorem mem_of_mem_distinctBy {key : α → κ} {items : List α} {a : α}
    (h : a ∈ distinctBy key items) : a ∈ items := mem_of_mem_distinctFrom h

theorem findSome?_distinctFrom [LawfulBEq κ] [LawfulHashable κ] {β : Type} (key : α → κ)
    (f : α → Option β) (seen : Std.HashSet κ) (items : List α)
    (same : ∀ a ∈ items, ∀ b ∈ items, key a = key b → f a = f b)
    (past : ∀ a ∈ items, seen.contains (key a) → f a = none) :
    (distinctFrom key seen items).findSome? f = items.findSome? f := by
  induction items generalizing seen with
  | nil => rfl
  | cons a rest ih =>
    have same' : ∀ b ∈ rest, ∀ c ∈ rest, key b = key c → f b = f c := fun b hb c hc =>
      same b (List.mem_cons_of_mem a hb) c (List.mem_cons_of_mem a hc)
    rw [distinctFrom]
    split
    · next seenBefore =>
      rw [List.findSome?_cons, past a List.mem_cons_self seenBefore]
      exact ih seen same' fun b hb => past b (List.mem_cons_of_mem a hb)
    · rw [List.findSome?_cons, List.findSome?_cons]
      cases found : f a with
      | some x => rfl
      | none =>
        refine ih _ same' fun b hb hmem => ?_
        rw [Std.HashSet.contains_insert, Bool.or_eq_true, beq_iff_eq] at hmem
        cases hmem with
        | inl equal =>
          rw [← found]
          exact (same a List.mem_cons_self b (List.mem_cons_of_mem a hb) equal).symm
        | inr h => exact past b (List.mem_cons_of_mem a hb) h

theorem findSome?_distinctBy [LawfulBEq κ] [LawfulHashable κ] {β : Type} (key : α → κ)
    (f : α → Option β) (items : List α)
    (same : ∀ a ∈ items, ∀ b ∈ items, key a = key b → f a = f b) :
    (distinctBy key items).findSome? f = items.findSome? f :=
  findSome?_distinctFrom key f ∅ items same fun a _ h => by simp at h

end TermScan
