import TermScan.Automaton.Machine
import TermScan.Proofs.Automaton.Chains
import TermScan.Proofs.Automaton.Traversal

/-!
# A machine scans as its automaton does

A builder's number stands for a variant or for a fork, a traversal for a walk. A character takes
what stands for something to what stands for what that becomes, so along any text the machine finds
what the automaton finds, and everything it asks for is there.
-/
namespace TermScan

open List (Forall₂)

variable {α β γ : Type}

/-- What is asked for item by item is there, if it is there for every item. -/
theorem exists_mapM {f : α → Option β} {R : β → γ → Prop} {xs : List α} {zs : List γ}
    (h : Forall₂ (fun x z => ∃ y, f x = some y ∧ R y z) xs zs) :
    ∃ ys, xs.mapM f = some ys ∧ Forall₂ R ys zs := by
  induction h with
  | nil => exact ⟨[], rfl, .nil⟩
  | cons hxz _ ih =>
    obtain ⟨y, hy, hyz⟩ := hxz
    obtain ⟨ys, hys, hrest⟩ := ih
    exact ⟨y :: ys, by simp [hy, hys], .cons hyz hrest⟩

theorem mapM_eq_map {f : α → Option β} {g : γ → β} {xs : List α} {zs : List γ}
    (h : Forall₂ (fun x z => f x = some (g z)) xs zs) : xs.mapM f = some (zs.map g) := by
  induction h with
  | nil => rfl
  | cons hxz _ ih => simp [hxz, ih]

theorem forall₂_findIdxs (p : α → Bool) (items : List α) :
    Forall₂ (fun i a => items[i]? = some a) (items.findIdxs p) (items.filter p) := by
  induction items using List.reverseRecOn with
  | nil => exact .nil
  | append_singleton items a ih =>
    rw [List.findIdxs_append, List.filter_append]
    refine List.rel_append (ih.imp fun i b hi => ?_) ?_
    · rw [List.getElem?_append_left (List.getElem?_eq_some_iff.mp hi).1, hi]
    · by_cases ha : p a <;> simp [ha]

theorem isEmpty_eq_of_forall₂ {R : α → β → Prop} {xs : List α} {ys : List β} (h : Forall₂ R xs ys) :
    xs.isEmpty = ys.isEmpty := by
  cases h <;> rfl

namespace Builder

variable {b : Builder} {variants : List Variant}

/-- The number of a variant. -/
def Numbers (b : Builder) (number : Nat) (v : Variant) : Prop :=
  b.variants[number]? = some (.ofVariant v)

/-- The number of a fork, which knows the number of its variant. -/
def NumbersFork (b : Builder) (number : Nat) (f : Fork) : Prop :=
  ∃ i, b.forks[number]? = some (.ofFork i f) ∧ b.Numbers i f.variant

theorem Holds.numbers (holds : b.Holds variants) {number : Nat} {v : Variant}
    (h : variants[number]? = some v) : b.Numbers number v := by
  rw [Numbers, ← Array.getElem?_toList, holds.variants_eq, List.getElem?_map, h, Option.map_some]

theorem Holds.numbersFork (holds : b.Holds variants) {number : Nat} {v : Variant}
    (h : (variants.filter (!·.isLiteral))[number]? = some v) :
    b.NumbersFork number (.ofVariant v) := by
  rw [← map_fst_filter_zipIdx, List.getElem?_map, Option.map_eq_some_iff] at h
  obtain ⟨⟨v, i⟩, hget, rfl⟩ := h
  refine ⟨i, ?_, holds.numbers (List.mem_zipIdx_iff_getElem?.mp
    (List.mem_filter.mp (List.mem_of_getElem? hget)).1)⟩
  rw [← Array.getElem?_toList, holds.forks_eq, forkRecords, List.getElem?_map, hget,
    Option.map_some]

/-! The tables of a scan -/

/-- What a node carries are the numbers of what the automaton finds in the rows of that node. -/
def Carries (b : Builder) (a : Automaton) (node : NodeRecord) (x : Nat) : Prop :=
  Forall₂ b.Numbers node.ends (a.ends[x]?.getD []) ∧
    Forall₂ b.NumbersFork node.forks (a.forks[x]?.getD [])

/-- A chain of the builder leads through the rows that the automaton reads. -/
def Meets (b : Builder) (row : Nat → List α) (chain : Option (List Nat)) (items : List α) : Prop :=
  ∃ met, chain = some met ∧ (∀ y ∈ met, y < b.trie.size) ∧ met.flatMap row = items

/-- An automaton scans with what the builder has put together. -/
structure ScannedBy (b : Builder) (links : BuilderLinks) (a : Automaton) : Prop where
  sound : b.trie.Sound
  linked_eq : a.linked = .ofTrie b.trie
  failure_eq : links.pass.failure = a.linked.failure
  longest_eq : b.longest = a.longest
  size_eq : b.variants.size = a.variantCount
  filled : ∀ r ∈ b.forks, r.tail ≠ [] ∧ r.tail.Filled
  carries : ∀ x < b.trie.size, ∃ node, b.nodes[x]? = some node ∧ b.Carries a node x
  ending : ∀ x < b.trie.size,
    b.Meets (a.ends[·]?.getD []) (b.endingFrom links x) (a.endingAt x)
  forking : ∀ x < b.trie.size,
    b.Meets (a.forks[·]?.getD []) (b.spawningFrom links x) (a.forkingAt x)

/-- A node accepts where there are literal variants to be found. -/
theorem Carries.accepts_eq {a : Automaton} {node : NodeRecord} {x : Nat} (h : b.Carries a node x)
    (hnode : b.nodes[x]? = some node) : b.accepts x = !(a.ends[x]?.getD []).isEmpty := by
  rw [accepts, hnode, Option.any_some, isEmpty_eq_of_forall₂ h.1]

theorem Carries.spawns_eq {a : Automaton} {node : NodeRecord} {x : Nat} (h : b.Carries a node x)
    (hnode : b.nodes[x]? = some node) : b.spawns x = !(a.forks[x]?.getD []).isEmpty := by
  rw [spawns, hnode, Option.any_some, isEmpty_eq_of_forall₂ h.2]

namespace Holds

variable (holds : b.Holds variants) (whitelist : Whitelist) (pipeline : Pipeline) (limit : Nat)
  {w : List Char} {x : Nat}

include holds

theorem getElem?_nodes (hw : b.trie.find? w = some x) : b.nodes[x]? = some (b.carried w) :=
  Builder.getElem?_nodes holds.size_eq holds.sound hw

theorem carries (hw : b.trie.find? w = some x) :
    b.Carries (.ofVariants variants whitelist pipeline limit) (b.carried w) x := by
  rw [holds.carried_eq, Carries, numbersAt]
  constructor
  · rw [Automaton.ends_ofVariants variants whitelist pipeline limit (holds.trie_eq ▸ hw),
      List.filter_filter]
    have hrows := forall₂_findIdxs (fun v => v.isLiteral && v.atoms.lead == w) variants
    simp only [Bool.and_comm, beq_eq_decide] at hrows ⊢
    exact hrows.imp fun _ _ => holds.numbers
  · rw [Automaton.forks_ofVariants variants whitelist pipeline limit (holds.trie_eq ▸ hw),
      List.forall₂_map_right_iff]
    have hrows := forall₂_findIdxs (fun v => v.atoms.lead == w) (variants.filter (!·.isLiteral))
    simp only [beq_eq_decide] at hrows ⊢
    exact hrows.imp fun _ _ => holds.numbersFork

/-- The automaton looks for literal variants where the builder's chain accepts. -/
theorem endingAt_eq (hw : b.trie.find? w = some x) :
    let a := Automaton.ofVariants variants whitelist pipeline limit
    a.endingAt x = (if b.trie.chained b.accepts w x then
      x :: b.trie.markedBelow (b.trie.chained b.accepts w) w
      else b.trie.markedBelow (b.trie.chained b.accepts w) w).flatMap (a.ends[·]?.getD []) := by
  intro a
  have haccepts (s : List Char) (y : Nat) (hs : b.trie.find? s = some y) :=
    (holds.carries whitelist pipeline limit hs).accepts_eq (holds.getElem?_nodes hs)
  have hchained (s : List Char) (y : Nat) (hs : b.trie.find? s = some y) :
      b.trie.chained b.accepts w y =
        b.trie.chained (fun y => !(a.ends[y]?.getD []).isEmpty) w y := by
    rw [Trie.chained, Trie.chained, haccepts s y hs]
  have hchain :
      a.linked.chain a.endLinks x = b.trie.markedBelow (b.trie.chained b.accepts w) w := by
    rw [Trie.markedBelow_congr hchained, holds.trie_eq]
    exact Automaton.chain_endLinks variants whitelist pipeline limit (holds.trie_eq ▸ hw)
  rw [Automaton.endingAt, hchain, Trie.chained_self holds.sound hw, haccepts w x hw]
  -- a node that does not accept has nothing to add
  cases hrow : a.ends[x]?.getD [] <;> simp [hrow]

theorem forkingAt_eq (hw : b.trie.find? w = some x) :
    let a := Automaton.ofVariants variants whitelist pipeline limit
    a.forkingAt x = (x :: b.trie.markedBelow b.spawns w).flatMap (a.forks[·]?.getD []) := by
  intro a
  have hspawns (s : List Char) (y : Nat) (hs : b.trie.find? s = some y) :=
    (holds.carries whitelist pipeline limit hs).spawns_eq (holds.getElem?_nodes hs)
  have hchain : a.linked.chain a.forkLinks x = b.trie.markedBelow b.spawns w := by
    rw [Trie.markedBelow_congr hspawns, holds.trie_eq]
    exact Automaton.chain_forkLinks variants whitelist pipeline limit (holds.trie_eq ▸ hw)
  rw [Automaton.forkingAt, hchain]

end Holds

theorem scannedBy_ofVariants {variants : List Variant} (filled : ∀ v ∈ variants, v.atoms.Filled)
    (whitelist : Whitelist) (pipeline : Pipeline) (limit : Nat)
    {listing : Nat → List (Char × Nat)} (listed : (ofVariants variants).trie.IsListing listing) :
    ∃ links, (ofVariants variants).link listing = some links ∧
      (ofVariants variants).ScannedBy links
        (.ofVariants variants whitelist pipeline limit) := by
  have holds := holds_ofVariants variants
  obtain ⟨links, hlink, standing, hqueue, linked⟩ := holds.link_spec listed
  refine ⟨links, hlink, holds.sound, ?linked, ?failure, holds.longest_eq, ?size,
    fun r hr => ?filled, fun x hx => ?carries, fun x hx => ?ending, fun x hx => ?forking⟩
  case linked =>
    rw [holds.trie_eq]
    rfl
  case failure =>
    rw [(standing.exact holds.sound hqueue).failure_eq, holds.trie_eq]
    rfl
  case size =>
    rw [← Array.length_toList, holds.variants_eq, List.length_map]
    rfl
  case filled =>
    obtain ⟨v, hv, hforks, -, -, htail⟩ := holds.mem_forks hr
    rw [Variant.isLiteral_iff] at hforks
    exact htail ▸ ⟨hforks, (filled v hv).tail⟩
  all_goals obtain ⟨w, hw⟩ := holds.sound.exists_find? hx
  case carries => exact ⟨_, holds.getElem?_nodes hw, holds.carries whitelist pipeline limit hw⟩
  case ending =>
    exact ⟨_, Trie.acceptingSuffixes_eq holds.sound standing hqueue hw,
      (Trie.lists_suffixes holds.sound _ hw).lt_size holds.sound,
      (holds.endingAt_eq whitelist pipeline limit hw).symm⟩
  case forking =>
    exact ⟨_, spawningFrom_eq holds.sound linked hw,
      List.forall_mem_cons.mpr ⟨hx, (Trie.lists_markedBelow holds.sound _ w).lt_size holds.sound⟩,
      (holds.forkingAt_eq whitelist pipeline limit hw).symm⟩

end Builder

namespace Machine

variable {m : Machine} {a : Automaton}

/-! What is looked up -/

/-- Along a chain the nodes carry the numbers of what the automaton finds there. -/
theorem carriedBy?_spec (scanned : m.builder.ScannedBy m.links a) {row : Nat → List α}
    {chain : Option (List Nat)} {items : List α} (meets : m.builder.Meets row chain items)
    {carried : NodeRecord → List β} {R : β → α → Prop}
    (hrow : ∀ ⦃node x⦄, m.builder.Carries a node x → Forall₂ R (carried node) (row x)) :
    ∃ met nodes, chain = some met ∧ m.carriedBy? met = some nodes ∧
      Forall₂ R (nodes.flatMap carried) items := by
  obtain ⟨met, hchain, hmet, rfl⟩ := meets
  obtain ⟨nodes, hnodes, hcarries⟩ := exists_mapM
    (List.forall₂_same.mpr fun y hy => scanned.carries y (hmet y hy))
  exact ⟨met, nodes, hchain, hnodes, List.rel_flatMap hcarries hrow⟩

/-- By its number a variant gives the match that it gives itself. -/
theorem emit?_eq (whitelisted : IntervalSet) (recent : Ring Site) (last : Site) {number : Nat}
    {v : Variant} (h : m.builder.Numbers number v) :
    m.emit? whitelisted recent last number =
      some (Automaton.match? whitelisted recent last v) := by
  rw [emit?, h]
  rfl

/-! Traversals -/

/-- A traversal stands where a walk does: it follows a fork of the same variant, and has not read
what is left of the walk. -/
def Follows (m : Machine) (t : Traversal) (w : Walk) : Prop :=
  ∃ r, m.builder.forks[t.fork]? = some r ∧ m.builder.Numbers r.variant w.variant ∧
    t.Within r.tail ∧ t.unread r.tail = w.rest

/-- A traversal is started where a walk is. -/
theorem enter?_spec (scanned : m.builder.ScannedBy m.links a) (recent : Ring Site) {number : Nat}
    {f : Fork} (h : m.builder.NumbersFork number f) :
    ∃ t, m.enter? recent number = some t ∧ Option.Rel m.Follows t
      (if Automaton.admits recent f then some (Walk.ofFork f) else none) := by
  obtain ⟨i, hfork, hvariant⟩ := h
  obtain ⟨hne, filled⟩ := scanned.filled _ (Array.mem_of_getElem? hfork)
  refine ⟨_, by rw [enter?, hfork]; rfl, ?_⟩
  show Option.Rel m.Follows (if Automaton.admits recent f then _ else _) _
  by_cases hadmits : Automaton.admits recent f
  · rw [if_pos hadmits, if_pos hadmits]
    exact .some ⟨_, hfork, hvariant, Traversal.within_start hne filled number,
      Traversal.unread_start _ number⟩
  · rw [if_neg hadmits, if_neg hadmits]
    exact .none

theorem spawn?_spec (scanned : m.builder.ScannedBy m.links a) (recent : Ring Site) {x : Nat}
    (hx : x < m.builder.trie.size) :
    ∃ traversals, m.spawn? recent x = some traversals ∧ Forall₂ m.Follows traversals
      (((a.forkingAt x).filter (Automaton.admits recent)).map Walk.ofFork) := by
  obtain ⟨met, nodes, hchain, hnodes, hnumbers⟩ :=
    carriedBy?_spec scanned (scanned.forking x hx) fun _ _ carries => carries.2
  obtain ⟨entered, hentered, hrel⟩ :=
    exists_mapM (hnumbers.imp fun _ _ => enter?_spec scanned recent)
  refine ⟨entered.filterMap id, by simp [spawn?, hchain, hnodes, hentered], ?_⟩
  rw [← List.filterMap_eq_map, List.filterMap_filter]
  exact List.rel_filterMap (fun _ _ h => h) hrel

/-- A character completes and keeps traversals where it completes and keeps walks. -/
theorem advance?_spec (scanned : m.builder.ScannedBy m.links a) (c : Char)
    {traversals : List Traversal} {walks : List Walk}
    (follows : Forall₂ m.Follows traversals walks) :
    ∃ completed alive, m.advance? c traversals = some (completed, alive) ∧
      Forall₂ m.builder.Numbers completed (advanceWalks c walks).1 ∧
      Forall₂ m.Follows alive (advanceWalks c walks).2 := by
  induction follows with
  | nil => exact ⟨[], [], rfl, .nil, .nil⟩
  | @cons t w ts ws hfollows _ ih =>
    obtain ⟨r, hfork, hvariant, within, hunread⟩ := hfollows
    obtain ⟨completed, alive, hrest, hcompleted, halive⟩ := ih
    have hstep := Traversal.advance_spec (scanned.filled _ (Array.mem_of_getElem? hfork)).2 within c
    have hkeeps := Traversal.fork_advance r.tail c t
    rw [hunread] at hstep
    rw [advance?, hfork, hrest, advanceWalks]
    simp only [bind, Option.bind_some]
    generalize t.advance r.tail c = step at hstep hkeeps ⊢
    obtain ⟨answer, t'⟩ := step
    cases hadvance : w.rest.advance c with
    | complete =>
      rw [hadvance] at hstep
      obtain rfl : answer = .complete := hstep
      exact ⟨_, _, rfl, .cons hvariant hcompleted, halive⟩
    | discard =>
      rw [hadvance] at hstep
      obtain rfl : answer = .discard := hstep
      exact ⟨_, _, rfl, hcompleted, halive⟩
    | proceed rest =>
      rw [hadvance] at hstep
      obtain ⟨hanswer, hwithin, hunread⟩ := hstep
      obtain rfl : answer = .proceed := hanswer
      exact ⟨_, _, rfl, hcompleted, .cons ⟨r, hkeeps ▸ hfork, hvariant, hwithin, hunread⟩ halive⟩

/-! Scans -/

/-- Between two characters the machine stands where the automaton does. -/
structure Stands (m : Machine) (s : State) (s' : Automaton.State) : Prop where
  recent_eq : s.recent = s'.recent
  node_eq : s.node = s'.node
  node_lt : s.node < m.builder.trie.size
  follows : Forall₂ m.Follows s.traversals s'.walks

/-- A machine is put together for an automaton. -/
structure Simulates (m : Machine) (a : Automaton) : Prop where
  scanned : m.builder.ScannedBy m.links a
  whitelist_eq : m.whitelist = a.whitelist
  pipeline_eq : m.pipeline = a.pipeline
  limit_eq : m.limit = a.limit

theorem Simulates.stands_start (simulates : m.Simulates a) : m.Stands m.start a.start where
  recent_eq := by rw [start, Automaton.start, simulates.scanned.longest_eq]
  node_eq := rfl
  node_lt := simulates.scanned.sound.size_pos
  follows := .nil

/-- The trie goes on to the node that the automaton goes on to. -/
theorem transition?_spec (scanned : m.builder.ScannedBy m.links a) {x : Nat}
    (hx : x < m.builder.trie.size) (c : Char) :
    m.builder.trie.transition? m.links.pass.failure x c = some (a.linked.step x c) ∧
      a.linked.step x c < m.builder.trie.size := by
  rw [scanned.failure_eq, scanned.linked_eq]
  refine ⟨Trie.transition?_ofTrie scanned.sound hx c, ?_⟩
  obtain ⟨w, hw⟩ := scanned.sound.exists_find? hx
  rw [← Trie.state_of_find? hw, LinkedTrie.step_state scanned.sound]
  exact Trie.state_lt scanned.sound _

/-- A character leads on from where both stand, unless too many would be under way, and completes
the same matches. -/
theorem read?_spec (scanned : m.builder.ScannedBy m.links a) (whitelisted : IntervalSet)
    (recent : Ring Site) {traversals : List Traversal} {walks : List Walk}
    (follows : Forall₂ m.Follows traversals walks) {x : Nat} (hx : x < m.builder.trie.size)
    (k : Mapped) :
    ∃ s, m.Stands s ⟨recent, a.linked.step x k.char, (advanceWalks k.char walks).2⟩ ∧
      m.read? whitelisted recent traversals x k = some (s,
        (((advanceWalks k.char walks).1 ++ a.endingAt (a.linked.step x k.char)).filterMap
          (Automaton.match? whitelisted recent k.site)).eraseDups) := by
  obtain ⟨completed, alive, hadvance, hcompleted, halive⟩ := advance?_spec scanned k.char follows
  obtain ⟨hstep, hlt⟩ := transition?_spec scanned hx k.char
  obtain ⟨met, nodes, hchain, hnodes, hending⟩ :=
    carriedBy?_spec scanned (scanned.ending _ hlt) fun _ _ carries => carries.1
  have hnumbers : Forall₂ m.builder.Numbers (completed ++ nodes.flatMap NodeRecord.ends)
      ((advanceWalks k.char walks).1 ++ a.endingAt (a.linked.step x k.char)) :=
    List.rel_append hcompleted hending
  have hfound := mapM_eq_map (hnumbers.imp fun _ _ => emit?_eq whitelisted recent k.site)
  refine ⟨⟨recent, a.linked.step x k.char, alive⟩, ⟨rfl, rfl, hlt, halive⟩, ?_⟩
  simp only [read?, hadvance, hstep, hchain, hnodes, hfound, bind, Option.bind_some,
    List.filterMap_map]
  rfl

/-- From where both stand, the machine scans as the automaton does. -/
theorem scanFrom?_eq (simulates : m.Simulates a) (input : String) (whitelisted : IntervalSet)
    {s : State} {s' : Automaton.State} (stands : m.Stands s s') (kept : List Mapped) :
    m.scanFrom? input whitelisted s kept = some (a.scanFrom input whitelisted s' kept) := by
  induction kept generalizing s s' with
  | nil => rfl
  | cons k kept ih =>
    have scanned := simulates.scanned
    obtain ⟨recent, node, walks⟩ := s'
    obtain ⟨rfl, rfl, hlt, follows⟩ := stands
    obtain ⟨spawned, hspawn, hspawned⟩ := spawn?_spec scanned (s.recent.push k.site) hlt
    have hwalks := List.rel_append follows hspawned
    obtain ⟨next, hstands, hread⟩ :=
      read?_spec scanned whitelisted (s.recent.push k.site) hwalks hlt k
    rw [scanFrom?, Automaton.scanFrom, Automaton.step, hspawn]
    simp only [bind, Option.bind_some, hwalks.length_eq, simulates.limit_eq]
    split
    · rw [limitError, Automaton.limitError, scanned.size_eq, simulates.limit_eq]
      rfl
    · rw [hread]
      simp only [Option.bind_some, ih hstands]
      rfl

/-- A machine is put together for every automaton, and scans every text as that does. -/
theorem scan?_eq {variants : List Variant} (filled : ∀ v ∈ variants, v.atoms.Filled)
    (whitelist : Whitelist) (pipeline : Pipeline) (limit : Nat)
    {listing : Nat → List (Char × Nat)}
    (listed : (Builder.ofVariants variants).trie.IsListing listing) :
    ∃ m, ofVariants? variants whitelist pipeline limit listing = some m ∧
      ∀ input, m.scan? input =
        some ((Automaton.ofVariants variants whitelist pipeline limit).scan input) := by
  obtain ⟨links, hlink, scanned⟩ :=
    Builder.scannedBy_ofVariants filled whitelist pipeline limit listed
  have simulates : Simulates ⟨.ofVariants variants, links, whitelist, pipeline, limit⟩
      (.ofVariants variants whitelist pipeline limit) := ⟨scanned, rfl, rfl, rfl⟩
  exact ⟨_, by rw [ofVariants?, hlink]; rfl,
    fun input => scanFrom?_eq simulates input _ simulates.stands_start _⟩

/-- So what is said of the scans of an automaton that is built for some options is said of a
machine. -/
theorem scan?_of_build {o : Options} {a : Automaton} (built : Automaton.build o = .ok a)
    {listing : Nat → List (Char × Nat)}
    (listed : (Builder.ofTerms o.terms).trie.IsListing listing) :
    ∃ m, ofVariants? a.variants a.whitelist a.pipeline a.limit listing = some m ∧
      ∀ input, m.scan? input = some (a.scan input) := by
  obtain ⟨-, whitelist, -, rfl⟩ := Automaton.build_eq_ok_iff.mp built
  have filled : ∀ v ∈ o.terms.flatMap Variant.ofTerm, v.atoms.Filled := by
    intro v hv
    obtain ⟨t, -, e, he, rfl⟩ := Variant.mem_ofTerms_iff.mp hv
    exact filled_of_mem_expand he
  exact scan?_eq filled whitelist _ _ listed

end Machine

end TermScan
