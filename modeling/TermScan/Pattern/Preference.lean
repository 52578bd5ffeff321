import TermScan.Distinct
import TermScan.Pattern.Basic
import TermScan.Text

/-!
# Preferred matches

Of the matches that its optionals allow at one place a pattern prefers one: choices are made from
the left, and presence is preferred to absence. `preferredLength?` tries the choices in turn, which
may take as many attempts as there are expansions. `extendAll` follows all of them at once; those
that have consumed equally many characters have the same text before them, so the most preferred
one stands for them all. `findSome?_extendAll` says that both find the same.
-/
namespace TermScan

/-- The text left behind an atom that matches at its start. -/
def Atom.strip? : Atom → List Char → Option (List Char)
  | wildcard, _ :: rest => some rest
  | wildcard, [] => none
  | literal [], text => some text
  | literal (_ :: _), [] => none
  | literal (c :: cs), d :: rest => if c = d then strip? (literal cs) rest else none

theorem Atom.eq_drop_of_strip? {atom : Atom} {text rest : List Char}
    (h : atom.strip? text = some rest) : rest = text.drop atom.width := by
  fun_induction Atom.strip? atom text with
  | case1 c text => simpa [width] using h.symm
  | case2 => cases h
  | case3 text => simpa [width] using h.symm
  | case4 => cases h
  | case5 cs c text ih => simpa [width] using ih h
  | case6 => cases h

/-- How many characters nodes match at the start of a text, where `accepts` judges the text left
behind. The first choice that succeeds counts, and presence is chosen before absence. -/
def preferredLength? (accepts : List Char → Bool) : List Node → List Char → Option Nat
  | [], text => if accepts text then some 0 else none
  | .one atom :: nodes, text =>
    ((atom.strip? text).bind (preferredLength? accepts nodes)).map (atom.width + ·)
  | .optional atom :: nodes, text =>
    match ((atom.strip? text).bind (preferredLength? accepts nodes)).map (atom.width + ·) with
    | some n => some n
    | none => preferredLength? accepts nodes text

/-- How far a choice of optionals has come: the number of characters consumed, and the text
behind them. -/
structure Reach where
  length : Nat
  rest : List Char
  deriving DecidableEq, Repr

def Reach.extend? (atom : Atom) (r : Reach) : Option Reach :=
  (atom.strip? r.rest).map fun rest => ⟨r.length + atom.width, rest⟩

/-- The number of characters consumed, if the text behind them is accepted. -/
def Reach.end? (accepts : List Char → Bool) (r : Reach) : Option Nat :=
  if accepts r.rest then some r.length else none

/-- Consumes nodes in every way that matters, from the most preferred way to the least. -/
def extendAll : List Node → List Reach → List Reach
  | _, [] => []
  | [], rs => rs
  | .one atom :: nodes, rs => extendAll nodes (rs.filterMap (·.extend? atom))
  | .optional atom :: nodes, rs =>
    extendAll nodes (distinctBy Reach.length (rs.flatMap fun r => (r.extend? atom).toList ++ [r]))

/-- The length of the preferred match of nodes at the start of a text. -/
def matchNodes? (accepts : List Char → Bool) (nodes : List Node) (text : List Char) : Option Nat :=
  (extendAll nodes [⟨0, text⟩]).findSome? (·.end? accepts)

/-- The length that the nodes still to be matched bring a reach to. -/
def Reach.finish? (accepts : List Char → Bool) (nodes : List Node) (r : Reach) : Option Nat :=
  (preferredLength? accepts nodes r.rest).map (r.length + ·)

theorem Reach.finish?_one (accepts : List Char → Bool) (atom : Atom) (nodes : List Node)
    (r : Reach) :
    r.finish? accepts (.one atom :: nodes) =
      (r.extend? atom).bind (·.finish? accepts nodes) := by
  cases h : atom.strip? r.rest <;>
    simp [finish?, extend?, preferredLength?, h, Function.comp_def, Nat.add_assoc]

theorem Reach.finish?_optional (accepts : List Char → Bool) (atom : Atom) (nodes : List Node)
    (r : Reach) :
    r.finish? accepts (.optional atom :: nodes) =
      ((r.extend? atom).toList ++ [r]).findSome? (·.finish? accepts nodes) := by
  cases h : atom.strip? r.rest with
  | none => simp [finish?, extend?, preferredLength?, h]
  | some rest =>
    cases h' : preferredLength? accepts nodes rest <;>
      simp [finish?, extend?, preferredLength?, h, h', Nat.add_assoc]

/-- The texts left to the reaches are those behind what they consumed of one text. -/
def ReachesOf (text : List Char) (rs : List Reach) : Prop :=
  ∀ r ∈ rs, r.rest = text.drop r.length

theorem rest_of_extend? {text : List Char} {atom : Atom} {r r' : Reach}
    (hr : r.rest = text.drop r.length) (h : r.extend? atom = some r') :
    r'.rest = text.drop r'.length := by
  rw [Reach.extend?, Option.map_eq_some_iff] at h
  obtain ⟨rest, hrest, rfl⟩ := h
  rw [Atom.eq_drop_of_strip? hrest, hr, List.drop_drop]

theorem ReachesOf.filterMap_extend? {text : List Char} {rs : List Reach}
    (h : ReachesOf text rs) (atom : Atom) : ReachesOf text (rs.filterMap (·.extend? atom)) := by
  intro r' hr'
  obtain ⟨r, hr, hext⟩ := List.mem_filterMap.mp hr'
  exact rest_of_extend? (h r hr) hext

theorem ReachesOf.flatMap_extend? {text : List Char} {rs : List Reach}
    (h : ReachesOf text rs) (atom : Atom) :
    ReachesOf text (rs.flatMap fun r => (r.extend? atom).toList ++ [r]) := by
  intro r' hr'
  obtain ⟨r, hr, hmem⟩ := List.mem_flatMap.mp hr'
  rw [List.mem_append, Option.mem_toList, List.mem_singleton] at hmem
  cases hmem with
  | inl hext => exact rest_of_extend? (h r hr) hext
  | inr equal => exact equal ▸ h r hr

theorem findSome?_extendAll (accepts : List Char → Bool) (text : List Char) (nodes : List Node)
    (rs : List Reach) (h : ReachesOf text rs) :
    (extendAll nodes rs).findSome? (·.end? accepts) = rs.findSome? (·.finish? accepts nodes) := by
  fun_induction extendAll nodes rs with
  | case1 => rfl
  | case2 rs =>
    congr 1
    funext r
    by_cases hr : accepts r.rest <;> simp [Reach.end?, Reach.finish?, preferredLength?, hr]
  | case3 atom nodes rs _ ih =>
    rw [ih (h.filterMap_extend? atom), ← List.head?_filterMap, List.filterMap_filterMap,
      List.head?_filterMap]
    congr 1
    funext r
    exact (Reach.finish?_one accepts atom nodes r).symm
  | case4 atom nodes rs _ ih =>
    have all := h.flatMap_extend? atom
    have same : ∀ a ∈ rs.flatMap fun r => (r.extend? atom).toList ++ [r],
        ∀ b ∈ rs.flatMap fun r => (r.extend? atom).toList ++ [r],
        a.length = b.length → a.finish? accepts nodes = b.finish? accepts nodes := by
      intro a ha b hb equal
      rw [Reach.finish?, Reach.finish?, all a ha, all b hb, equal]
    rw [ih fun r hr => all r (mem_of_mem_distinctBy hr),
      findSome?_distinctBy Reach.length _ _ same, ← List.head?_filterMap, List.filterMap_flatMap,
      List.head?_flatMap]
    congr 1
    funext r
    rw [List.head?_filterMap]
    exact (Reach.finish?_optional accepts atom nodes r).symm

/-- Following all choices at once finds what trying them in turn finds. -/
theorem matchNodes?_eq_preferredLength? (accepts : List Char → Bool) (nodes : List Node)
    (text : List Char) : matchNodes? accepts nodes text = preferredLength? accepts nodes text := by
  have h : ReachesOf text [⟨0, text⟩] := by simp [ReachesOf]
  rw [matchNodes?, findSome?_extendAll accepts text nodes _ h]
  simp [Reach.finish?]

end TermScan
