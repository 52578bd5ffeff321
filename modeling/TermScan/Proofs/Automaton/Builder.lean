import TermScan.Automaton.Builder
import TermScan.Proofs.Automaton.Variants
import TermScan.Proofs.Trie.Nearest

/-!
# What a builder holds

The invariant is a view of the builder by strings: what the node of a string carries are the numbers
of the variants with that lead. One more variant changes what is carried at one string only.
-/
namespace TermScan

theorem map_fst_filter_zipIdx {α : Type} (p : α → Bool) (items : List α) :
    (items.zipIdx.filter fun e => p e.1).map Prod.fst = items.filter p := by
  calc (items.zipIdx.filter fun e => p e.1).map Prod.fst
    _ = (items.zipIdx.map Prod.fst).filter p := List.filter_map.symm
    _ = items.filter p := by rw [List.zipIdx_map_fst]

/-- A variant is cut at its first wildcard into lead and tail. -/
theorem Expansion.cut (e : Expansion) :
    e.findIdx? (· == .wildcard) = none ∧ e.tail = [] ∧ e.literalChars = e.lead ∨
      ∃ first, e.findIdx? (· == .wildcard) = some first ∧ e.tail ≠ [] ∧
        Expansion.literalChars (e.take first) = e.lead ∧ e.drop first = e.tail := by
  induction e with
  | nil => exact .inl ⟨rfl, rfl, rfl⟩
  | cons a e ih =>
    cases a with
    | wildcard => exact .inr ⟨0, by rw [List.findIdx?_cons]; rfl, by simp [tail], rfl, rfl⟩
    | literal chars =>
      have hskip : (Atom.literal chars :: e).findIdx? (· == .wildcard) =
          (e.findIdx? (· == .wildcard)).map (· + 1) := by
        rw [List.findIdx?_cons]
        rfl
      rw [hskip, tail, lead]
      rcases ih with ⟨hnone, htail, hlead⟩ | ⟨first, hsome, htail, hlead, hdrop⟩
      · exact .inl ⟨by rw [hnone]; rfl, htail, by rw [literalChars, hlead]⟩
      · refine .inr ⟨first + 1, by rw [hsome]; rfl, htail, ?_, hdrop⟩
        rw [List.take_succ_cons, literalChars, hlead]

/-- The record of a fork, for a variant with the given number. -/
def ForkRecord.ofFork (number : Nat) (f : Fork) : ForkRecord :=
  ⟨number, f.leadLength, f.variant.startBoundary, f.variant.endBoundary, f.tail⟩

namespace Builder

variable {b : Builder} {variants : List Variant}

/-- What the node of a string carries; nothing where there is no node. -/
def carried (b : Builder) (w : List Char) : NodeRecord :=
  ((b.trie.find? w).bind (b.nodes[·]?)).getD .empty

theorem getElem?_nodes (hsize : b.nodes.size = b.trie.size) (sound : b.trie.Sound) {w : List Char}
    {x : Nat} (hw : b.trie.find? w = some x) : b.nodes[x]? = some (b.carried w) := by
  have hx : x < b.nodes.size := hsize ▸ (sound.find?_spec hw).1
  rw [carried, hw, Option.bind_some, Array.getElem?_eq_getElem hx, Option.getD_some]

/-- When there are new nodes, and they carry nothing, the others carry what they did. -/
theorem getElem?_padded (hsize : b.nodes.size = b.trie.size) (sound : b.trie.Sound)
    {word w : List Char} {x : Nat} (hw : (b.trie.insert word).1.find? w = some x) :
    (b.nodes ++ Array.replicate ((b.trie.insert word).1.size - b.trie.size) .empty)[x]? =
      some (b.carried w) := by
  obtain ⟨sound', -, hkeeps, -⟩ := Trie.insert_spec sound word
  cases hold : b.trie.find? w with
  | some y =>
    have hy : y < b.nodes.size := hsize ▸ (sound.find?_spec hold).1
    obtain rfl := Option.some.inj ((hkeeps w y hold).symm.trans hw)
    rw [Array.getElem?_append_left hy, getElem?_nodes hsize sound hold]
  | none =>
    have hnew := Trie.size_le_of_new sound hold hw
    have hx := (sound'.find?_spec hw).1
    rw [Array.getElem?_append_right (by omega), Array.getElem?_replicate, if_pos (by omega),
      carried, hold]
    rfl

/-- Placing a string changes what is carried at it alone. -/
theorem place_spec (hsize : b.nodes.size = b.trie.size) (sound : b.trie.Sound) (word : List Char)
    (carry : NodeRecord → NodeRecord) :
    (b.place word carry).nodes.size = (b.place word carry).trie.size ∧
      ∀ w, (b.place word carry).carried w =
        if w = word then carry (b.carried w) else b.carried w := by
  obtain ⟨-, hword, hkeeps, -⟩ := Trie.insert_spec sound word
  refine ⟨?_, fun w => ?_⟩
  · have hle := Trie.size_le_insert sound word
    simp only [place, Array.size_modify, Array.size_append, Array.size_replicate]
    omega
  cases hw : (b.trie.insert word).1.find? w with
  | none =>
    have hold : b.trie.find? w = none := by
      cases hold : b.trie.find? w with
      | none => rfl
      | some x => rw [hkeeps w x hold] at hw; contradiction
    have hne : w ≠ word := fun h => by rw [h, hword] at hw; contradiction
    simp [carried, place, hw, hold, hne]
  | some x =>
    rw [carried, place]
    dsimp only
    rw [hw, Option.bind_some, Array.getElem?_modify, getElem?_padded hsize sound hw]
    by_cases h : w = word
    · simp [Trie.snd_insert_eq_iff sound hw, h]
    · simp [Trie.snd_insert_eq_iff sound hw, h]

/-! The records of a list of variants -/

/-- The numbers of the literal variants that are a string, and of the forks with that lead. -/
def numbersAt (variants : List Variant) (w : List Char) : NodeRecord :=
  ⟨variants.findIdxs fun v => v.isLiteral && v.atoms.lead == w,
    (variants.filter (!·.isLiteral)).findIdxs fun v => v.atoms.lead == w⟩

/-- The records of the forks, with the numbers of their variants. -/
def forkRecords (variants : List Variant) : List ForkRecord :=
  (variants.zipIdx.filter fun e => !e.1.isLiteral).map fun e => .ofFork e.2 (.ofVariant e.1)

theorem length_forkRecords (variants : List Variant) :
    (forkRecords variants).length = (variants.filter (!·.isLiteral)).length := by
  rw [forkRecords, List.length_map, ← map_fst_filter_zipIdx (!·.isLiteral) variants,
    List.length_map]

theorem forkRecords_concat (variants : List Variant) (v : Variant) :
    forkRecords (variants ++ [v]) = if v.isLiteral then forkRecords variants
      else forkRecords variants ++ [.ofFork variants.length (.ofVariant v)] := by
  rw [forkRecords, List.zipIdx_append, List.filter_append, List.map_append]
  by_cases h : v.isLiteral <;> simp [forkRecords, h]

theorem numbersAt_concat (variants : List Variant) (v : Variant) (w : List Char) :
    numbersAt (variants ++ [v]) w =
      if w = v.atoms.lead then
        if v.isLiteral then (numbersAt variants w).addEnd variants.length
        else (numbersAt variants w).addFork (forkRecords variants).length
      else numbersAt variants w := by
  rw [numbersAt, List.filter_append, List.findIdxs_append, List.findIdxs_append,
    length_forkRecords]
  by_cases hw : w = v.atoms.lead
  · subst hw
    by_cases h : v.isLiteral <;> simp [numbersAt, NodeRecord.addEnd, NodeRecord.addFork, h]
  · by_cases h : v.isLiteral <;> simp [numbersAt, h, hw, Ne.symm hw]

/-! The invariant -/

/-- What is there to know of a builder to which the variants have been added. -/
structure Holds (b : Builder) (variants : List Variant) : Prop where
  trie_eq : b.trie = Automaton.leads variants
  size_eq : b.nodes.size = b.trie.size
  variants_eq : b.variants.toList = variants.map .ofVariant
  forks_eq : b.forks.toList = forkRecords variants
  longest_eq : b.longest = variants.foldl (fun n v => max n v.width) 0
  carried_eq : ∀ w, b.carried w = numbersAt variants w

theorem Holds.sound (holds : b.Holds variants) : b.trie.Sound :=
  holds.trie_eq ▸ Automaton.sound_leads variants

theorem holds_empty : empty.Holds [] where
  trie_eq := rfl
  size_eq := rfl
  variants_eq := rfl
  forks_eq := rfl
  longest_eq := rfl
  carried_eq w := by
    rw [carried]
    cases h : empty.trie.find? w with
    | none => rfl
    | some x =>
      obtain rfl : x = 0 := by simpa [empty, Trie.empty, Trie.size] using
        (Trie.sound_empty.find?_spec h).1
      rfl

/-- A literal variant is placed as it is. -/
theorem add_of_isLiteral (b : Builder) {v : Variant} (h : v.isLiteral) :
    b.add v = (b.record v).place v.atoms.lead (·.addEnd b.variants.size) := by
  rw [Variant.isLiteral_iff] at h
  rcases v.atoms.cut with ⟨hnone, -, hlead⟩ | ⟨first, -, htail, -⟩
  · rw [add, hnone]
    dsimp only
    rw [hlead]
  · contradiction

/-- Of another the lead is placed, and the tail is kept as a fork. -/
theorem add_of_not_isLiteral (b : Builder) {v : Variant} (h : ¬v.isLiteral) :
    b.add v = ((b.record v).pushFork (.ofFork b.variants.size (.ofVariant v))).place v.atoms.lead
      (·.addFork b.forks.size) := by
  rw [Variant.isLiteral_iff] at h
  rcases v.atoms.cut with ⟨-, htail, -⟩ | ⟨first, hsome, -, hlead, hdrop⟩
  · contradiction
  · rw [add, hsome]
    dsimp only
    rw [hlead, hdrop]
    rfl

/-- A variant is placed at its lead, once it has been recorded. -/
theorem Holds.place (holds : b.Holds variants) (v : Variant) {forks : Array ForkRecord}
    (hforks : forks.toList = forkRecords (variants ++ [v])) {carry : NodeRecord → NodeRecord}
    (hcarry : carry (numbersAt variants v.atoms.lead) =
      numbersAt (variants ++ [v]) v.atoms.lead) :
    ({ b.record v with forks }.place v.atoms.lead carry).Holds (variants ++ [v]) := by
  obtain ⟨hsize, hcarried⟩ := place_spec (b := { b.record v with forks }) holds.size_eq
    holds.sound v.atoms.lead carry
  refine ⟨?_, hsize, ?_, hforks, ?_, fun w => ?_⟩
  · show (b.trie.insert v.atoms.lead).1 = _
    rw [holds.trie_eq, Automaton.leads, Automaton.leads, List.map_append, Trie.ofWords,
      Trie.ofWords, List.foldl_append]
    rfl
  · show (b.variants.push _).toList = _
    rw [Array.toList_push, holds.variants_eq, List.map_append]
    rfl
  · show max b.longest v.width = _
    rw [holds.longest_eq, List.foldl_append]
    rfl
  · rw [hcarried, show ({ b.record v with forks } : Builder).carried w = b.carried w from rfl,
      holds.carried_eq]
    by_cases hw : w = v.atoms.lead
    · rw [if_pos hw, hw, hcarry]
    · rw [if_neg hw, numbersAt_concat, if_neg hw]

theorem Holds.add (holds : b.Holds variants) (v : Variant) : (b.add v).Holds (variants ++ [v]) := by
  have hvariants : b.variants.size = variants.length := by
    rw [← Array.length_toList, holds.variants_eq, List.length_map]
  have hforks : b.forks.size = (forkRecords variants).length := by
    rw [← Array.length_toList, holds.forks_eq]
  by_cases h : v.isLiteral
  · rw [add_of_isLiteral b h]
    refine holds.place v ?_ ?_
    · show b.forks.toList = _
      rw [holds.forks_eq, forkRecords_concat, if_pos h]
    · rw [numbersAt_concat, if_pos rfl, if_pos h, hvariants]
  · rw [add_of_not_isLiteral b h]
    refine holds.place v ?_ ?_
    · show (b.forks.push _).toList = _
      rw [Array.toList_push, holds.forks_eq, forkRecords_concat, if_neg h, hvariants]
    · rw [numbersAt_concat, if_pos rfl, if_neg h, hforks]

theorem holds_ofVariants (variants : List Variant) : (ofVariants variants).Holds variants := by
  induction variants using List.reverseRecOn with
  | nil => exact holds_empty
  | append_singleton variants v ih =>
    rw [ofVariants, List.foldl_append]
    exact ih.add v

/-- A fork is what follows the lead of a variant, and knows the number of that variant. -/
theorem Holds.mem_forks (holds : b.Holds variants) {r : ForkRecord} (hr : r ∈ b.forks) :
    ∃ v ∈ variants, ¬v.isLiteral ∧ b.variants[r.variant]? = some (.ofVariant v) ∧
      r.leadLength = v.atoms.lead.length ∧ r.tail = v.atoms.tail := by
  rw [← Array.mem_toList_iff, holds.forks_eq, forkRecords, List.mem_map] at hr
  obtain ⟨⟨v, number⟩, hmem, rfl⟩ := hr
  obtain ⟨hmem, hforks⟩ := List.mem_filter.mp hmem
  have hget := List.mem_zipIdx_iff_getElem?.mp hmem
  refine ⟨v, List.mem_of_getElem? hget, by simpa using hforks, ?_, rfl, rfl⟩
  show b.variants[number]? = some (.ofVariant v)
  rw [← Array.getElem?_toList, holds.variants_eq, List.getElem?_map, hget, Option.map_some]

end Builder

end TermScan
