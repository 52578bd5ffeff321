import TermScan.Proofs.Automaton.Builder

/-!
# What chains meet

Where the automaton stands it asks the node and the chains below it for the variants that end there
and for the forks that start there. The chains come by length and meet nothing twice. All that they
can miss is the root, if it accepts.
-/
namespace TermScan

namespace Builder

variable {b : Builder} {variants : List Variant}

/-- A node accepts where a literal variant is its string. -/
theorem Holds.accepts_iff (holds : b.Holds variants) {w : List Char} {x : Nat}
    (hw : b.trie.find? w = some x) :
    b.accepts x ↔ ∃ v ∈ variants, v.isLiteral ∧ v.atoms.lead = w := by
  rw [accepts, getElem?_nodes holds.size_eq holds.sound hw, Option.any_some, holds.carried_eq,
    numbersAt, Bool.not_eq_true', List.isEmpty_eq_false_iff, Ne, List.findIdxs_eq_nil_iff]
  simp

/-- A node spawns where it is the lead of a variant with wildcards. -/
theorem Holds.spawns_iff (holds : b.Holds variants) {w : List Char} {x : Nat}
    (hw : b.trie.find? w = some x) :
    b.spawns x ↔ ∃ v ∈ variants, ¬v.isLiteral ∧ v.atoms.lead = w := by
  rw [spawns, getElem?_nodes holds.size_eq holds.sound hw, Option.any_some, holds.carried_eq,
    numbersAt, Bool.not_eq_true', List.isEmpty_eq_false_iff, Ne, List.findIdxs_eq_nil_iff]
  simp

/-- Only a variant without characters ends at the root. -/
theorem Holds.accepts_root (holds : b.Holds variants) (wide : ∀ v ∈ variants, 0 < v.width) :
    b.accepts Trie.root = false := by
  rw [← Bool.not_eq_true, holds.accepts_iff (Trie.find?_nil b.trie)]
  intro ⟨v, hv, hliteral, hlead⟩
  have hwidth := v.width_eq
  rw [hlead, (Variant.isLiteral_iff v).mp hliteral] at hwidth
  exact absurd hwidth (wide v hv).ne'

/-! Linking -/

/-- Linking succeeds, and every link is that of the string of its node. -/
theorem Holds.link_spec (holds : b.Holds variants) {listing : Nat → List (Char × Nat)}
    (listed : b.trie.IsListing listing) :
    ∃ links, b.link listing = some links ∧ links.pass.Standing b.trie b.accepts ∧
      links.pass.queue = [] ∧ ∀ w x, b.trie.find? w = some x →
        links.forkLinks[x]? = some (b.trie.markedBelow b.spawns w).head? := by
  obtain ⟨pass, hbuild, standing, hqueue⟩ := Trie.buildLinks_spec listed holds.sound b.accepts
  obtain ⟨forkLinks, hlink, hnearest⟩ :=
    Trie.nearestLinks?_spec holds.sound standing hqueue b.spawns
  refine ⟨⟨pass, forkLinks⟩, ?_, standing, hqueue, hnearest⟩
  simp only [link, bind, Option.bind_some, hbuild, hlink]
  rfl

/-- Forks are asked for at a node, then at the spawning nodes below it. -/
theorem spawningFrom_eq (sound : b.trie.Sound) {links : BuilderLinks}
    (linked : ∀ w x, b.trie.find? w = some x →
      links.forkLinks[x]? = some (b.trie.markedBelow b.spawns w).head?)
    {w : List Char} {x : Nat} (hw : b.trie.find? w = some x) :
    b.spawningFrom links x = some (x :: b.trie.markedBelow b.spawns w) := by
  obtain ⟨hx, hdepth⟩ := sound.find?_spec hw
  have hlength : w.length < b.trie.size := hdepth ▸ sound.depth_lt hx
  obtain ⟨nodes, hnodes⟩ := Nat.exists_eq_add_of_lt sound.size_pos
  have hmeet := Trie.meetWithin_eq (fun _ => b.spawns) linked (fun _ _ _ => rfl) nodes (w := w)
    (by omega)
  rw [spawningFrom, hnodes, Nat.zero_add, Trie.meetWithin, linked w x hw]
  simp only [bind, Option.bind_some, hmeet]
  rfl

/-- What chains say at a node with the string `w`. -/
structure Chains (b : Builder) (variants : List Variant) (links : BuilderLinks) (x : Nat)
    (w : List Char) : Prop where
  find?_eq : b.trie.find? w = some x
  accepts_iff : b.accepts x ↔ ∃ v ∈ variants, v.isLiteral ∧ v.atoms.lead = w
  spawns_iff : b.spawns x ↔ ∃ v ∈ variants, ¬v.isLiteral ∧ v.atoms.lead = w
  /-- The accepting nodes of suffixes are met. Only the root can be missed, and only if a variant
  without characters ends there; an accepted term whose pattern was read from text has none. -/
  ending : ∃ met, b.endingFrom links x = some met ∧
    b.trie.Lists (b.trie.chained b.accepts w) (· <:+ w) met ∧
    ((∀ v ∈ variants, 0 < v.width) → b.trie.Lists b.accepts (· <:+ w) met)
  /-- The node is asked for forks, and then the spawning nodes of proper suffixes are. -/
  spawning : ∃ met, b.spawningFrom links x = some (x :: met) ∧
    b.trie.Lists b.spawns (fun s => s <:+ w ∧ s ≠ w) met

/-- Whatever variants are added and in whatever order edges are read: the trie is linked, the walks
along its chains end, and they meet the nodes of the suffixes that accept or spawn, each once and
the longest first. -/
theorem chains_exact (variants : List Variant) {listing : Nat → List (Char × Nat)}
    (listed : (ofVariants variants).trie.IsListing listing) :
    ∃ links, (ofVariants variants).link listing = some links ∧
      ∀ x < (ofVariants variants).trie.size, ∃ w,
        (ofVariants variants).Chains variants links x w := by
  have holds := holds_ofVariants variants
  obtain ⟨links, hlink, standing, hqueue, linked⟩ := holds.link_spec listed
  refine ⟨links, hlink, fun x hx => ?_⟩
  obtain ⟨w, hw⟩ := holds.sound.exists_find? hx
  have hlists := Trie.lists_suffixes holds.sound
    ((ofVariants variants).trie.chained (ofVariants variants).accepts w) hw
  refine ⟨w, hw, holds.accepts_iff hw, holds.spawns_iff hw,
    ⟨_, Trie.acceptingSuffixes_eq holds.sound standing hqueue hw, hlists, fun wide => ?_⟩,
    ⟨_, spawningFrom_eq holds.sound linked hw, Trie.lists_markedBelow holds.sound _ w⟩⟩
  rwa [Trie.chained_eq_of_not_accept (holds.accepts_root wide)] at hlists ⊢

/-- Where `xab` ends, so does `ab`; only `b` starts a fork. -/
theorem chains_exact_sample :
    let variants : List Variant := [⟨0, false, false, [.literal ['x', 'a', 'b']]⟩,
      ⟨1, false, false, [.literal ['a', 'b']]⟩, ⟨2, false, false, [.literal ['b'], .wildcard]⟩]
    let b := ofVariants variants
    ∃ links, b.link (fun x => (b.trie.children x).reverse) = some links ∧
      b.Chains variants links 3 ['x', 'a', 'b'] ∧
      b.endingFrom links 3 = some [3, 5] ∧ b.spawningFrom links 3 = some [3, 6] := by
  intro variants b
  obtain ⟨links, hlink, hchains⟩ :=
    chains_exact variants fun x => List.reverse_perm (b.trie.children x)
  have hending : ((b.link fun x => (b.trie.children x).reverse).bind fun links =>
      b.endingFrom links 3) = some [3, 5] := by decide +kernel
  have hspawning : ((b.link fun x => (b.trie.children x).reverse).bind fun links =>
      b.spawningFrom links 3) = some [3, 6] := by decide +kernel
  obtain ⟨w, hw⟩ := hchains 3 (by decide +kernel)
  obtain rfl := (holds_ofVariants variants).sound.find?_injective hw.find?_eq
    (show b.trie.find? ['x', 'a', 'b'] = some 3 by decide +kernel)
  rw [hlink] at hending hspawning
  exact ⟨links, hlink, hw, hending, hspawning⟩

/-- Two accepted terms, of which one has no characters. -/
def emptyTerms : List Term :=
  [⟨0, ⟨false, false, [.one (.literal [])]⟩⟩, ⟨1, ⟨false, false, [.one (.literal ['a'])]⟩⟩]

theorem ofTerms_emptyTerms : ofTerms emptyTerms = ofVariants [⟨0, false, false, []⟩,
    ⟨1, false, false, [.literal ['a']]⟩] := by
  rw [ofTerms, emptyTerms, List.flatMap_cons, List.flatMap_cons, List.flatMap_nil,
    Variant.ofTerm_eq, Variant.ofTerm_eq]
  rfl

/-- The accepting nodes of suffixes are not always met: below the node of `a`, the root is not. -/
theorem chains_miss_root :
    ¬∀ (terms : List Term) (links : BuilderLinks) (w : List Char) (x : Nat) (met : List Nat),
      Term.validate terms = .ok () →
      (ofTerms terms).link (ofTerms terms).trie.children = some links →
      (ofTerms terms).trie.find? w = some x → (ofTerms terms).endingFrom links x = some met →
      (ofTerms terms).trie.Lists (ofTerms terms).accepts (· <:+ w) met := by
  intro hlists
  have hending : (((ofTerms emptyTerms).link (ofTerms emptyTerms).trie.children).bind
      fun links => (ofTerms emptyTerms).endingFrom links 1) = some [1] := by
    rw [ofTerms_emptyTerms]
    decide +kernel
  obtain ⟨links, hlink, hmet⟩ := Option.bind_eq_some_iff.mp hending
  have hroot : (ofTerms emptyTerms).accepts Trie.root := by
    rw [ofTerms_emptyTerms]
    decide +kernel
  have hfind : (ofTerms emptyTerms).trie.find? ['a'] = some 1 := by
    rw [ofTerms_emptyTerms]
    decide +kernel
  have hmissed := ((hlists emptyTerms links ['a'] 1 [1] rfl hlink hfind hmet).mem_iff Trie.root).mpr
    ⟨hroot, [], Trie.find?_nil _, List.nil_suffix⟩
  exact absurd hmissed (by decide)

end Builder

end TermScan
