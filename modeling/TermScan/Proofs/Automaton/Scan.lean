import Mathlib.Data.Nat.Find
import TermScan.Automaton.Scan
import TermScan.Proofs.Automaton.Variants
import TermScan.Proofs.Places
import TermScan.Proofs.Ring

/-!
# The state of a scan

What a scan knows between two characters depends only on what it has read: the latest places, the
state of the characters read, and for every index the walks that started there and still fit. So
the state is a function of the index, and a step leads from one index to the next.
-/
namespace TermScan

/-! Walks -/

namespace Walk

/-- The walk that is left when characters have been read, if they fit and do not complete it. -/
def along (w : Walk) (chars : List Char) : Option Walk :=
  match w.rest.follow chars with
  | .proceed rest => some { w with rest }
  | _ => none

/-- The variant of a walk that characters complete. -/
def completed? (w : Walk) (chars : List Char) : Option Variant :=
  if w.rest.follow chars = .complete then some w.variant else none

@[simp] theorem along_nil (w : Walk) : w.along [] = some w := rfl

theorem along_concat (w : Walk) (chars : List Char) (c : Char) :
    (w.along chars).bind (·.along [c]) = w.along (chars ++ [c]) := by
  simp only [along, Expansion.follow_concat]
  cases w.rest.follow chars <;> rfl

theorem completed?_concat (w : Walk) (chars : List Char) (c : Char) :
    (w.along chars).bind (·.completed? [c]) = w.completed? (chars ++ [c]) := by
  simp only [along, completed?, Expansion.follow_concat]
  cases w.rest.follow chars <;> rfl

theorem advanceWalks_eq (c : Char) (walks : List Walk) :
    advanceWalks c walks = (walks.filterMap (·.completed? [c]), walks.filterMap (·.along [c])) := by
  induction walks with
  | nil => rfl
  | cons w walks ih =>
    have hfollow : w.rest.follow [c] = w.rest.advance c := rfl
    rw [advanceWalks, ih, List.filterMap_cons, List.filterMap_cons, completed?, along, hfollow]
    cases w.rest.advance c <;> rfl

end Walk

/-! States -/

namespace Automaton

variable (a : Automaton) (kept : List Mapped)

/-- Nothing keeps a variant from starting at an index. -/
def opens (kept : List Mapped) (v : Variant) (i : Nat) : Bool :=
  !v.startBoundary || kept[i]?.any fun m => m.site.opensBoundary

/-- The walks that start when the character at an index is about to be read. -/
def spawned (k : Nat) : List Walk :=
  ((Variant.withLeadIn (a.variants.filter (!·.isLiteral)) (between kept 0 k)).filter fun v =>
    opens kept v (k - v.atoms.lead.length)).map fun v => ⟨v, v.atoms.tail⟩

/-- What is left at index `k` of the walks that started before index `n`. -/
def walksAt (n k : Nat) : List Walk :=
  (List.range n).flatMap fun s => (a.spawned kept s).filterMap (·.along (between kept s k))

/-- The number of walks under way when the character at an index is read. -/
def loadAt (k : Nat) : Nat := (a.walksAt kept (k + 1) k).length

/-- The variants of the walks that the character at an index completes. -/
def completedAt (k : Nat) : List Variant :=
  (List.range (k + 1)).flatMap fun s =>
    (a.spawned kept s).filterMap (·.completed? (between kept s (k + 1)))

/-- The variants that the character at an index completes. -/
def variantsAt (k : Nat) : List Variant :=
  a.completedAt kept k ++
    Variant.withLeadIn (a.variants.filter (·.isLiteral)) (between kept 0 (k + 1))

/-- The places remembered before the character at an index is read. -/
def recentAt (k : Nat) : Ring Site :=
  ((kept.take k).map Mapped.site).foldl Ring.push (.empty a.longest)

/-- The state before the character at an index is read. -/
def stateAt (k : Nat) : State :=
  ⟨a.recentAt kept k, (leads a.variants).state (between kept 0 k), a.walksAt kept k k⟩

/-- The matches that end with the character at an index, each once. -/
def foundAt (whitelisted : IntervalSet) (k : Nat) : List Match :=
  match kept[k]? with
  | none => []
  | some m =>
    ((a.variantsAt kept k).filterMap
      (match? whitelisted (a.recentAt kept (k + 1)) m.site)).eraseDups

theorem stateAt_zero : a.stateAt kept 0 = a.start := by
  have hstate : (leads a.variants).state [] = Trie.root :=
    Trie.state_of_find? (Trie.find?_nil _)
  rw [stateAt, between_self, hstate]
  rfl

variable {kept}

/-- Counted back from an index, the places remembered are those of the characters before it. -/
theorem get?_recentAt {k back : Nat} (hback : back < k) (hk : k ≤ kept.length)
    (hlongest : back < a.longest) :
    (a.recentAt kept k).get? back = kept[k - 1 - back]?.map Mapped.site :=
  get?_sites_take hback hk hlongest

theorem recentAt_succ {k : Nat} (hk : k < kept.length) :
    (a.recentAt kept k).push kept[k].site = a.recentAt kept (k + 1) :=
  foldl_push_sites_succ (.empty a.longest) hk

/-- A walk that starts now has not read anything. -/
theorem walksAt_self (k : Nat) :
    a.walksAt kept k k ++ a.spawned kept k = a.walksAt kept (k + 1) k := by
  have hfresh : (a.spawned kept k).filterMap (·.along (between kept k k)) = a.spawned kept k := by
    simp only [between_self, Walk.along_nil, List.filterMap_some]
  rw [walksAt, walksAt, List.range_succ, List.flatMap_append, List.flatMap_singleton, hfresh]

theorem advanceWalks_walksAt {k : Nat} (hk : k < kept.length) :
    advanceWalks kept[k].char (a.walksAt kept (k + 1) k) =
      (a.completedAt kept k, a.walksAt kept (k + 1) (k + 1)) := by
  have hnext : ∀ s ∈ List.range (k + 1),
      between kept s k ++ [kept[k].char] = between kept s (k + 1) := fun s hs =>
    (between_succ kept (by simpa [Nat.lt_succ_iff] using hs) hk).symm
  rw [Walk.advanceWalks_eq]
  simp only [walksAt, completedAt, List.filterMap_flatMap, List.filterMap_filterMap,
    Walk.along_concat, Walk.completed?_concat]
  congr 1
  · exact List.flatMap_congr fun s hs => by rw [hnext s hs]
  · exact List.flatMap_congr fun s hs => by rw [hnext s hs]

/-- The forks that are admitted at an index become the walks that start there. -/
theorem map_ofFork_forkingAt (sound : a.Sound) {k : Nat} (hk : k < kept.length) :
    ((a.forkingAt ((leads a.variants).state (between kept 0 k))).filter
      (admits (a.recentAt kept (k + 1)))).map Walk.ofFork = a.spawned kept k := by
  have hadmits : ∀ v ∈ Variant.withLeadIn (a.variants.filter (!·.isLiteral)) (between kept 0 k),
      admits (a.recentAt kept (k + 1)) (Fork.ofVariant v) =
        opens kept v (k - v.atoms.lead.length) := by
    intro v hv
    rw [Variant.mem_withLeadIn, List.mem_filter, suffix_between_iff kept hk.le] at hv
    obtain ⟨⟨hmem, hforks⟩, hle, -⟩ := hv
    have htail : 0 < v.atoms.tail.width :=
      Expansion.width_tail_pos (by simpa [Variant.isLiteral] using hforks)
    have hlongest := sound.width_le v hmem
    rw [v.width_eq] at hlongest
    have hfirst : (a.recentAt kept (k + 1)).get? v.atoms.lead.length =
        kept[k + 1 - 1 - v.atoms.lead.length]?.map Mapped.site :=
      a.get?_recentAt (by omega) (by omega) (by omega)
    have hindex : k + 1 - 1 - v.atoms.lead.length = k - v.atoms.lead.length := by omega
    rw [hindex] at hfirst
    rw [admits, canStart, opens, Fork.ofVariant, hfirst]
    cases kept[k - v.atoms.lead.length]? <;> rfl
  rw [sound.forkingAt_state, List.filter_map, List.map_map, spawned]
  congr 1
  exact List.filter_congr hadmits

/-- Variants without characters are never reported. -/
theorem filterMap_match?_filter (whitelisted : IntervalSet) (recent : Ring Site) (last : Site)
    (variants : List Variant) :
    (variants.filter (0 < ·.width)).filterMap (match? whitelisted recent last) =
      variants.filterMap (match? whitelisted recent last) := by
  rw [List.filterMap_filter]
  refine List.filterMap_congr fun v _ => ?_
  by_cases hv : 0 < v.width
  · simp [hv]
  · obtain hzero : v.width = 0 := by omega
    simp [hzero, match?, matchOf?, firstOf?]

/-- A step leads from one index to the next, unless too many walks would be under way. -/
theorem step_stateAt (sound : a.Sound) (whitelisted : IntervalSet) {k : Nat}
    (hk : k < kept.length) :
    a.step whitelisted (a.stateAt kept k) kept[k] =
      if a.limit < a.loadAt kept k then none
      else some (a.stateAt kept (k + 1), a.foundAt kept whitelisted k) := by
  have hnode : a.linked.step ((leads a.variants).state (between kept 0 k)) kept[k].char =
      (leads a.variants).state (between kept 0 (k + 1)) := by
    rw [sound.linked_eq, LinkedTrie.step_state (sound_leads _), between_succ kept k.zero_le hk]
  have hwalks : a.walksAt kept k k ++
      ((a.forkingAt ((leads a.variants).state (between kept 0 k))).filter
        (admits (a.recentAt kept (k + 1)))).map Walk.ofFork = a.walksAt kept (k + 1) k := by
    rw [a.map_ofFork_forkingAt sound hk, walksAt_self]
  have hfound (last : Site) :
      (a.completedAt kept k ++
        a.endingAt ((leads a.variants).state (between kept 0 (k + 1)))).filterMap
          (match? whitelisted (a.recentAt kept (k + 1)) last) =
        (a.variantsAt kept k).filterMap (match? whitelisted (a.recentAt kept (k + 1)) last) := by
    rw [variantsAt, List.filterMap_append, List.filterMap_append,
      ← filterMap_match?_filter _ _ _ (a.endingAt _), sound.endingAt_state,
      filterMap_match?_filter]
  simp only [step, stateAt, recentAt_succ a hk, hwalks, hnode, a.advanceWalks_walksAt hk, hfound]
  rw [foundAt, List.getElem?_eq_getElem hk, loadAt]

/-! Runs -/

/-- As long as the limit holds, a scan collects the matches found at each index. -/
theorem scanFrom_stateAt (sound : a.Sound) (input : String) (whitelisted : IntervalSet) {n : Nat}
    (hn : n ≤ kept.length) (hload : ∀ k < n, a.loadAt kept k ≤ a.limit) :
    a.scanFrom input whitelisted a.start kept =
      let (later, failure) := a.scanFrom input whitelisted (a.stateAt kept n) (kept.drop n)
      ((List.range n).flatMap (a.foundAt kept whitelisted) ++ later, failure) := by
  induction n with
  | zero => simp [← a.stateAt_zero kept]
  | succ n ih =>
    have hstep := a.step_stateAt sound whitelisted (Nat.lt_of_succ_le hn)
    rw [if_neg (Nat.not_lt.mpr (hload n n.lt_succ_self))] at hstep
    rw [ih (Nat.le_of_succ_le hn) fun k hk => hload k (Nat.lt_succ_of_lt hk),
      List.drop_eq_getElem_cons (Nat.lt_of_succ_le hn), scanFrom, hstep]
    simp [List.range_succ]

variable (kept) in
/-- A scan within the limit finds what ends at each index. -/
theorem scanFrom_of_le (sound : a.Sound) (input : String) (whitelisted : IntervalSet)
    (hload : ∀ k < kept.length, a.loadAt kept k ≤ a.limit) :
    a.scanFrom input whitelisted a.start kept =
      ((List.range kept.length).flatMap (a.foundAt kept whitelisted), none) := by
  rw [a.scanFrom_stateAt sound input whitelisted (Nat.le_refl _) hload, List.drop_length, scanFrom]
  simp

/-- A scan that exceeds the limit at an index, and not before, fails there and finds what ends
before. -/
theorem scanFrom_of_lt (sound : a.Sound) (input : String) (whitelisted : IntervalSet) {n : Nat}
    (hn : n < kept.length) (hload : ∀ k < n, a.loadAt kept k ≤ a.limit)
    (hexceeds : a.limit < a.loadAt kept n) :
    a.scanFrom input whitelisted a.start kept =
      ((List.range n).flatMap (a.foundAt kept whitelisted), some (a.limitError input kept[n])) := by
  have hstep := a.step_stateAt sound whitelisted hn
  rw [if_pos hexceeds] at hstep
  rw [a.scanFrom_stateAt sound input whitelisted hn.le hload, List.drop_eq_getElem_cons hn,
    scanFrom, hstep]
  simp

variable (kept) in
/-- Either the limit holds at every index, or there is a first one at which it does not. -/
theorem loadAt_cases :
    (∀ k < kept.length, a.loadAt kept k ≤ a.limit) ∨
      ∃ n < kept.length, a.limit < a.loadAt kept n ∧ ∀ k < n, a.loadAt kept k ≤ a.limit := by
  by_cases h : ∃ n, n < kept.length ∧ a.limit < a.loadAt kept n
  · obtain ⟨hlt, hexceeds⟩ := Nat.find_spec h
    refine .inr ⟨Nat.find h, hlt, hexceeds, fun k hk => ?_⟩
    have := Nat.find_min h hk
    exact Nat.not_lt.mp fun hload => this ⟨hk.trans hlt, hload⟩
  · push Not at h
    exact .inl h

end Automaton

end TermScan
