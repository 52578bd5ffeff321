import Mathlib.Data.Finset.Card
import TermScan.Proofs.Automaton.Limit
import TermScan.Proofs.Trie.Build

/-!
# Counting nodes and variants

The nodes of a trie and the prefixes of the strings inserted are in bijection, so the number of the
nodes is the number of distinct prefixes, the empty one included. The automaton has a node for each
prefix of a lead, and a variant for each distinct expansion of each term.
-/
namespace TermScan

namespace Trie

variable {t : Trie}

/-- The nodes that are given when strings are inserted one after the other. -/
def inserted (t : Trie) : List (List Char) → List Nat
  | [] => []
  | w :: words => (t.insert w).2 :: (t.insert w).1.inserted words

/-- The prefixes of some strings; the empty one is there even if there are no strings. -/
def prefixes (words : List (List Char)) : Finset (List Char) :=
  ([] :: words.flatMap List.inits).toFinset

theorem mem_prefixes {words : List (List Char)} {p : List Char} :
    p ∈ prefixes words ↔ p = [] ∨ ∃ w ∈ words, p <+: w := by
  simp [prefixes, List.mem_inits]

/-- The nodes that are given are those to which the strings lead in the end. -/
theorem map_some_inserted (sound : t.Sound) (words : List (List Char)) :
    (t.inserted words).map some =
      words.map (words.foldl (fun t w => (t.insert w).1) t).find? := by
  induction words generalizing t with
  | nil => rfl
  | cons w words ih =>
    obtain ⟨sound', hword, -, -⟩ := insert_spec sound w
    rw [inserted, List.map_cons, List.map_cons, List.foldl_cons, ih sound',
      find?_insertAll sound' words hword]

/-- There are as many nodes as prefixes. -/
theorem size_ofWords (words : List (List Char)) : (ofWords words).size = (prefixes words).card := by
  have sound := sound_ofWords words
  have hheld (p : List Char) (hp : p ∈ prefixes words) :
      (ofWords words).find? p = some ((ofWords words).state p) := by
    have hsome : ((ofWords words).find? p).isSome :=
      find?_ofWords_isSome_iff.mpr (mem_prefixes.mp hp)
    rw [← find?_longest, longest_of_isSome hsome]
  have himage : (prefixes words).image (ofWords words).state =
      Finset.range (ofWords words).size := by
    ext x
    rw [Finset.mem_image, Finset.mem_range]
    constructor
    · rintro ⟨p, -, rfl⟩
      exact state_lt sound p
    · intro hx
      obtain ⟨p, hp⟩ := sound.exists_find? hx
      refine ⟨p, mem_prefixes.mpr (find?_ofWords_isSome_iff.mp ?_), state_of_find? hp⟩
      rw [hp]
      rfl
  rw [← Finset.card_range (ofWords words).size, ← himage, Finset.card_image_of_injOn]
  intro p hp q hq heq
  exact sound.find?_injective (hheld p hp) (heq ▸ hheld q hq)

/-- The nodes after some insertions are the prefixes of the strings. -/
structure PrefixNodes (words : List (List Char)) : Prop where
  /-- An insertion gives the node to which the string leads in the end. -/
  inserted_eq : (empty.inserted words).map some = words.map (ofWords words).find?
  /-- The same node is given if and only if the strings are the same. -/
  inserted_iff : ∀ i j, i < words.length → j < words.length →
    ((empty.inserted words)[i]? = (empty.inserted words)[j]? ↔ words[i]? = words[j]?)
  /-- The edges from the root spell the prefixes, and nothing else. -/
  held_iff : ∀ p, (∃ x, (ofWords words).find? p = some x) ↔ p = [] ∨ ∃ w ∈ words, p <+: w
  /-- No two of them lead to the same node. -/
  find?_injective : ∀ p q x, (ofWords words).find? p = some x →
    (ofWords words).find? q = some x → p = q
  /-- They lead to all nodes there are. -/
  lt_size_iff : ∀ x, x < (ofWords words).size ↔ ∃ p, (ofWords words).find? p = some x
  depth_eq : ∀ p x, (ofWords words).find? p = some x → (ofWords words).depth x = p.length
  size_eq : (ofWords words).size = (prefixes words).card
  /-- Later insertions do not change where a string leads. -/
  kept : ∀ later p x, (ofWords words).find? p = some x →
    (ofWords (words ++ later)).find? p = some x

theorem prefixNodes (words : List (List Char)) : PrefixNodes words := by
  have sound := sound_ofWords words
  have hinserted : (empty.inserted words).map some = words.map (ofWords words).find? :=
    map_some_inserted sound_empty words
  refine ⟨hinserted, fun i j hi hj => ?_, fun p => ?_, fun p q x => sound.find?_injective,
    fun x => ⟨sound.exists_find?, fun ⟨p, hp⟩ => (sound.find?_spec hp).1⟩,
    fun p x hp => (sound.find?_spec hp).2, size_ofWords words, fun later p x hp => ?_⟩
  · have hnode (i : Nat) (hi : i < words.length) : ∃ u x, words[i]? = some u ∧
        (empty.inserted words)[i]? = some x ∧ (ofWords words).find? u = some x := by
      have hat : ((empty.inserted words)[i]?).map some = (words[i]?).map (ofWords words).find? := by
        rw [← List.getElem?_map, hinserted, List.getElem?_map]
      rw [List.getElem?_eq_getElem hi, Option.map_some] at hat
      obtain ⟨x, hx, hfind⟩ := Option.map_eq_some_iff.mp hat
      exact ⟨_, x, List.getElem?_eq_getElem hi, hx, hfind.symm⟩
    obtain ⟨u, x, hu, hx, hfind⟩ := hnode i hi
    obtain ⟨w, y, hw, hy, hfind'⟩ := hnode j hj
    rw [hx, hy, hu, hw, Option.some_inj, Option.some_inj]
    constructor
    · rintro rfl
      exact sound.find?_injective hfind hfind'
    · rintro rfl
      exact Option.some.inj (hfind.symm.trans hfind')
  · rw [← Option.isSome_iff_exists, find?_ofWords_isSome_iff]
  · rw [ofWords, List.foldl_append]
    exact find?_insertAll sound later hp

end Trie

/-- The leads of all expansions. -/
def Term.leads (terms : List Term) : List (List Char) :=
  terms.flatMap fun t => (expand t.pattern.nodes).map Expansion.lead

namespace Automaton

variable {o : Options} {a : Automaton}

/-- The leads of variants are those of expansions. -/
theorem prefixes_leads (terms : List Term) :
    Trie.prefixes ((terms.flatMap Variant.ofTerm).map (·.atoms.lead)) =
      Trie.prefixes (Term.leads terms) := by
  have hmem (w : List Char) : w ∈ (terms.flatMap Variant.ofTerm).map (·.atoms.lead) ↔
      w ∈ Term.leads terms := by
    simp only [List.mem_map, List.mem_flatMap, Variant.ofTerm_eq, List.mem_eraseDups, Term.leads]
    constructor
    · rintro ⟨v, ⟨t, ht, e, he, rfl⟩, rfl⟩
      exact ⟨t, ht, e, he, rfl⟩
    · rintro ⟨t, ht, e, he, rfl⟩
      exact ⟨Variant.ofExpansion t e, ⟨t, ht, e, he, rfl⟩, rfl⟩
  ext p
  simp only [Trie.mem_prefixes, hmem]

theorem nodeCount_eq (built : build o = .ok a) :
    a.nodeCount = (Trie.prefixes (Term.leads o.terms)).card := by
  rw [nodeCount, (builtFrom built).sound.linked_eq, (builtFrom built).variants_eq,
    ← prefixes_leads, ← Trie.size_ofWords]
  rfl

/-- After insertions the nodes are the prefixes of the strings. So an automaton has a node for each
distinct prefix of a lead, and it has a variant for each distinct expansion of each term. -/
theorem nodes_exact :
    (∀ words, Trie.PrefixNodes words) ∧ ∀ (o : Options) (a : Automaton), build o = .ok a →
      a.nodeCount = (Trie.prefixes (Term.leads o.terms)).card ∧
        a.variantCount = Term.patternCount o.terms :=
  ⟨Trie.prefixNodes, fun _ _ built => ⟨nodeCount_eq built, variantCount_eq built⟩⟩

/-- The leads of the sample are `a` and `b`; its expansions are `a`, `a?` and `b`. -/
theorem nodes_exact_sample :
    Trie.PrefixNodes [['a'], ['a', 'b'], ['a']] ∧
      Trie.empty.inserted [['a'], ['a', 'b'], ['a']] = [1, 2, 1] ∧
      (sampleAutomaton none).nodeCount = 3 ∧ (sampleAutomaton none).variantCount = 3 := by
  obtain ⟨hnodes, hcounts⟩ := nodes_exact
  obtain ⟨hnodeCount, hvariantCount⟩ := hcounts _ _ (build_sampleOptions none)
  exact ⟨hnodes _, by decide, hnodeCount.trans (by decide), hvariantCount.trans (by decide)⟩

end Automaton

end TermScan
