import Mathlib.Data.List.Nodup
import TermScan.Proofs.Pattern.Matching
import TermScan.Proofs.Ring
import TermScan.Proofs.Trie.Outputs

/-!
# Variants at the nodes

Standing at the state of a text, the automaton knows the variants whose lead the text ends with:
the literal ones along the end links, the others along the fork links. Neither depends on how the
trie came to be.
-/
open scoped List

namespace TermScan

/-! Distinct items -/

section Distinct

variable {α : Type} [BEq α] [Hashable α] [LawfulBEq α] [LawfulHashable α]

theorem distinctFrom_eq (seen : Std.HashSet α) (items : List α) :
    distinctFrom id seen items = (items.filter (!seen.contains ·)).eraseDups := by
  induction items generalizing seen with
  | nil => rfl
  | cons a items ih =>
    rw [distinctFrom, id_eq]
    by_cases ha : seen.contains a
    · rw [if_pos ha, ih, List.filter_cons_of_neg (by simp [ha])]
    · rw [if_neg ha, ih, List.filter_cons_of_pos (by simpa using ha), List.eraseDups_cons,
        List.filter_filter]
      congr 2
      refine List.filter_congr fun b _ => ?_
      rw [Std.HashSet.contains_insert, Bool.not_or, BEq.comm]

theorem distinctBy_eq_eraseDups (items : List α) : distinctBy id items = items.eraseDups := by
  simp [distinctBy, distinctFrom_eq]

end Distinct

theorem nodup_eraseDups {α : Type} [BEq α] [LawfulBEq α] (items : List α) :
    items.eraseDups.Nodup := by
  induction hn : items.length using Nat.strong_induction_on generalizing items with
  | _ n ih =>
    cases items with
    | nil => simp
    | cons a items =>
      rw [List.eraseDups_cons, List.nodup_cons]
      have hshort := List.length_filter_le (fun b => !b == a) items
      rw [List.length_cons] at hn
      exact ⟨by simp, ih _ (by omega) _ rfl⟩

/-! Variants of terms -/

/-- No two terms that are accepted have the same id. -/
theorem Term.nodup_ids {terms : List Term} (h : validate terms = .ok ()) :
    (terms.map Term.id).Nodup := by
  have fresh (earlier : List Int) (terms : List Term) (h : (checkFrom earlier terms).2 = none) :
      (terms.map Term.id).Nodup ∧ ∀ t ∈ terms, t.id ∉ earlier := by
    induction terms generalizing earlier with
    | nil => simp
    | cons t terms ih =>
      rw [checkFrom] at h
      cases herror : t.error? earlier with
      | some e => rw [herror] at h; contradiction
      | none =>
        rw [herror] at h
        obtain ⟨hnodup, hfresh⟩ := ih (t.id :: earlier) h
        have hid : t.id ∉ earlier := by
          intro hmem
          rw [Term.error?, if_pos (List.contains_iff_mem.mpr hmem)] at herror
          contradiction
        rw [List.map_cons, List.nodup_cons, List.forall_mem_cons]
        refine ⟨⟨fun hmem => ?_, hnodup⟩, hid, fun t' ht' hmem => ?_⟩
        · obtain ⟨t', ht', heq⟩ := List.mem_map.mp hmem
          exact hfresh t' ht' (heq ▸ List.mem_cons_self)
        · exact hfresh t' ht' (List.mem_cons_of_mem _ hmem)
  rw [validate, check] at h
  cases hcheck : (checkFrom [] terms).2 with
  | some e => rw [hcheck] at h; contradiction
  | none => exact (fresh [] terms hcheck).1

namespace Variant

/-- The variant that an expansion of a term is. -/
def ofExpansion (t : Term) (e : Expansion) : Variant :=
  ⟨t.id, t.pattern.startBoundary, t.pattern.endBoundary, e⟩

theorem ofTerm_eq (t : Term) :
    ofTerm t = (expand t.pattern.nodes).eraseDups.map (ofExpansion t) := by
  rw [← distinctBy_eq_eraseDups]
  rfl

theorem mem_ofTerms_iff {terms : List Term} {v : Variant} :
    v ∈ terms.flatMap ofTerm ↔ ∃ t ∈ terms, ∃ e ∈ expand t.pattern.nodes, ofExpansion t e = v := by
  simp only [List.mem_flatMap, ofTerm_eq, List.mem_map, List.mem_eraseDups]

theorem isLiteral_iff (v : Variant) : v.isLiteral ↔ v.atoms.tail = [] := by simp [isLiteral]

theorem width_eq (v : Variant) : v.width = v.atoms.lead.length + v.atoms.tail.width := by
  rw [width, ← Expansion.length_symbols, Expansion.symbols_eq, List.length_append,
    List.length_map, Expansion.length_symbols]

/-- The variants of a list whose lead a text ends with, those with the longest lead first. -/
def withLeadIn (variants : List Variant) (text : List Char) : List Variant :=
  text.tails.flatMap fun s => variants.filter fun v => v.atoms.lead = s

theorem mem_withLeadIn {variants : List Variant} {text : List Char} {v : Variant} :
    v ∈ withLeadIn variants text ↔ v ∈ variants ∧ v.atoms.lead <:+ text := by
  simp [withLeadIn, and_comm]

/-- Each variant is found once. -/
theorem perm_withLeadIn (variants : List Variant) (text : List Char) :
    (withLeadIn variants text).Perm (variants.filter fun v => v.atoms.lead <:+ text) := by
  induction text with
  | nil => simp [withLeadIn]
  | cons c text ih =>
    -- a lead is either the whole text or ends a shorter one, never both
    have hwhole : (variants.filter fun v => v.atoms.lead <:+ c :: text).filter
        (fun v => v.atoms.lead = c :: text) =
          variants.filter fun v => v.atoms.lead = c :: text := by
      rw [List.filter_filter]
      refine List.filter_congr fun v _ => ?_
      have : v.atoms.lead = c :: text → v.atoms.lead <:+ c :: text := fun h => h ▸ List.suffix_rfl
      simpa using this
    have hshorter : (variants.filter fun v => v.atoms.lead <:+ c :: text).filter
        (fun v => !decide (v.atoms.lead = c :: text)) =
          variants.filter fun v => v.atoms.lead <:+ text := by
      rw [List.filter_filter]
      refine List.filter_congr fun v _ => ?_
      have : v.atoms.lead <:+ text → v.atoms.lead ≠ c :: text := by
        intro h heq
        have := h.length_le
        rw [heq, List.length_cons] at this
        omega
      rw [Bool.eq_iff_iff]
      simp only [List.suffix_cons_iff, Bool.and_eq_true, Bool.not_eq_true', decide_eq_true_eq,
        decide_eq_false_iff_not]
      tauto
    calc withLeadIn variants (c :: text)
      _ = variants.filter (fun v => v.atoms.lead = c :: text) ++ withLeadIn variants text := by
        rw [withLeadIn, List.tails_cons, List.flatMap_cons, withLeadIn]
      _ ~ variants.filter (fun v => v.atoms.lead = c :: text) ++
          variants.filter fun v => v.atoms.lead <:+ text := ih.append_left _
      _ ~ variants.filter fun v => v.atoms.lead <:+ c :: text := by
        rw [← hshorter, ← hwhole]
        exact List.filter_append_perm _ _

end Variant

/-! Construction -/

theorem bind_eq_ok_iff {ε α β : Type} {x : Except ε α} {f : α → Except ε β} {b : β} :
    x >>= f = .ok b ↔ ∃ a, x = .ok a ∧ f a = .ok b := by
  cases x <;> simp [bind, Except.bind]

/-! Rows -/

theorem getElem?_groupRows {α : Type} {rows x : Nat} (entries : List (Nat × α)) (hx : x < rows) :
    (groupRows rows entries)[x]? = some ((entries.filter fun e => e.1 = x).map Prod.snd) := by
  induction entries with
  | nil => simp [groupRows, hx]
  | cons e entries ih =>
    rw [groupRows] at ih ⊢
    rw [List.foldr_cons, Array.getElem?_modify, ih]
    by_cases h : e.1 = x <;> simp [h]

theorem row_groupRows {α : Type} {rows x : Nat} (f : Variant → α) (node : Variant → Nat)
    (variants : List Variant) (hx : x < rows) :
    (groupRows rows (variants.map fun v => (node v, f v)))[x]?.getD [] =
      (variants.filter fun v => node v = x).map f := by
  rw [getElem?_groupRows _ hx, Option.getD_some, List.filter_map, List.map_map]
  rfl

/-! Nodes -/

namespace Automaton

/-- The trie of the leads. -/
def leads (variants : List Variant) : Trie := .ofWords (variants.map (·.atoms.lead))

theorem sound_leads (variants : List Variant) : (leads variants).Sound := Trie.sound_ofWords _

theorem exists_find?_lead {variants : List Variant} {v : Variant} (hv : v ∈ variants) :
    ∃ x, (leads variants).find? v.atoms.lead = some x := by
  have : ((leads variants).find? v.atoms.lead).isSome := by
    refine Trie.find?_ofWords_isSome_iff.mpr (.inr ⟨v.atoms.lead, ?_, List.prefix_rfl⟩)
    exact List.mem_map.mpr ⟨v, hv, rfl⟩
  exact Option.isSome_iff_exists.mp this

/-- In rows by the nodes of their leads, the row of a string holds the variants with that lead. -/
theorem row_of_lead {α : Type} (f : Variant → α) {variants chosen : List Variant}
    (hchosen : chosen ⊆ variants) (s : List Char) :
    (((leads variants).find? s).map fun x =>
      (groupRows (leads variants).size (chosen.map fun v =>
        (((leads variants).find? v.atoms.lead).getD Trie.root, f v)))[x]?.getD []).getD [] =
      (chosen.filter fun v => v.atoms.lead = s).map f := by
  have sound := sound_leads variants
  cases hs : (leads variants).find? s with
  | none =>
    have hnone : ∀ v ∈ chosen, ¬v.atoms.lead = s := by
      rintro v hv rfl
      obtain ⟨x, hx⟩ := exists_find?_lead (hchosen hv)
      rw [hx] at hs
      contradiction
    rw [List.filter_eq_nil_iff.mpr (by simpa using hnone)]
    rfl
  | some x =>
    have hx := (sound.find?_spec hs).1
    rw [Option.map_some, Option.getD_some, row_groupRows f _ chosen hx]
    congr 1
    refine List.filter_congr fun v hv => ?_
    obtain ⟨y, hy⟩ := exists_find?_lead (hchosen hv)
    rw [hy, Option.getD_some, decide_eq_decide]
    constructor
    · rintro rfl
      exact sound.find?_injective hy hs
    · rintro rfl
      rw [hy] at hs
      exact Option.some.inj hs

section Tables

variable (variants : List Variant) (whitelist : Whitelist) (pipeline : Pipeline) (limit : Nat)
  {w : List Char} {x : Nat}

/-- The literal variants that end where a string does are that string. -/
theorem row_ends (s : List Char) :
    (((leads variants).find? s).map fun x =>
      (ofVariants variants whitelist pipeline limit).ends[x]?.getD []).getD [] =
      (variants.filter (·.isLiteral)).filter fun v => v.atoms.lead = s := by
  have hrow := row_of_lead id (List.filter_sublist (p := (·.isLiteral)) (l := variants)).subset s
  rw [List.map_id] at hrow
  exact hrow

/-- The forks that start where a string ends have it as their lead. -/
theorem row_forks (s : List Char) :
    (((leads variants).find? s).map fun x =>
      (ofVariants variants whitelist pipeline limit).forks[x]?.getD []).getD [] =
      ((variants.filter (!·.isLiteral)).filter fun v => v.atoms.lead = s).map Fork.ofVariant := by
  have hrow := row_of_lead Fork.ofVariant
    (List.filter_sublist (p := (!·.isLiteral)) (l := variants)).subset s
  exact hrow

theorem ends_ofVariants (hw : (leads variants).find? w = some x) :
    (ofVariants variants whitelist pipeline limit).ends[x]?.getD [] =
      (variants.filter (·.isLiteral)).filter fun v => v.atoms.lead = w := by
  have hrow := row_ends variants whitelist pipeline limit w
  rwa [hw] at hrow

theorem forks_ofVariants (hw : (leads variants).find? w = some x) :
    (ofVariants variants whitelist pipeline limit).forks[x]?.getD [] =
      ((variants.filter (!·.isLiteral)).filter fun v => v.atoms.lead = w).map Fork.ofVariant := by
  have hrow := row_forks variants whitelist pipeline limit w
  rwa [hw] at hrow

theorem chain_endLinks (hw : (leads variants).find? w = some x) :
    let a := ofVariants variants whitelist pipeline limit
    a.linked.chain a.endLinks x = (leads variants).markedBelow
      ((leads variants).chained (fun y => !(a.ends[y]?.getD []).isEmpty) w) w := by
  intro a
  rw [← LinkedTrie.chain_outputLinks (sound_leads variants) hw]
  rfl

theorem chain_forkLinks (hw : (leads variants).find? w = some x) :
    let a := ofVariants variants whitelist pipeline limit
    a.linked.chain a.forkLinks x =
      (leads variants).markedBelow (fun y => !(a.forks[y]?.getD []).isEmpty) w := by
  intro a
  rw [← LinkedTrie.chain_eq (sound_leads variants) hw]
  rfl

/-- Only variants without characters end at the root. -/
theorem width_of_ends_root {v : Variant}
    (h : v ∈ (ofVariants variants whitelist pipeline limit).ends[Trie.root]?.getD []) :
    v.width = 0 := by
  rw [ends_ofVariants variants whitelist pipeline limit (Trie.find?_nil _), List.mem_filter,
    List.mem_filter, Variant.isLiteral_iff, decide_eq_true_eq] at h
  rw [v.width_eq, h.2, h.1.2]
  rfl

end Tables

/-- The tables of an automaton find its variants. -/
structure Sound (a : Automaton) : Prop where
  linked_eq : a.linked = LinkedTrie.ofTrie (leads a.variants)
  /-- At the state of a text the literal variants are found that it ends with, apart from those
  without characters. -/
  endingAt_state : ∀ text, (a.endingAt ((leads a.variants).state text)).filter (0 < ·.width) =
    (Variant.withLeadIn (a.variants.filter (·.isLiteral)) text).filter (0 < ·.width)
  /-- At the state of a text the variants with wildcards are found whose lead it ends with. -/
  forkingAt_state : ∀ text, a.forkingAt ((leads a.variants).state text) =
    (Variant.withLeadIn (a.variants.filter (!·.isLiteral)) text).map Fork.ofVariant
  width_le : ∀ v ∈ a.variants, v.width ≤ a.longest

theorem sound_ofVariants (variants : List Variant) (whitelist : Whitelist) (pipeline : Pipeline)
    (limit : Nat) : (ofVariants variants whitelist pipeline limit).Sound where
  linked_eq := rfl
  endingAt_state text := by
    set a := ofVariants variants whitelist pipeline limit
    have hvariants : a.variants = variants := rfl
    have hchain : a.linked.chain a.endLinks ((leads variants).state text) = _ :=
      chain_endLinks variants whitelist pipeline limit (Trie.find?_longest (leads variants) text)
    -- the chain passes over the root, where only variants without characters end
    have rowless (y : Nat) (hy : (leads variants).chained
        (fun y => !(a.ends[y]?.getD []).isEmpty) ((leads variants).longest text) y = false) :
        (a.ends[y]?.getD []).filter (0 < ·.width) = [] := by
      rw [Trie.chained, Bool.and_eq_false_iff, Bool.or_eq_false_iff] at hy
      rcases hy with hy | ⟨hy, -⟩
      · have hnone : a.ends[y]?.getD [] = [] := List.isEmpty_iff.mp (by simpa using hy)
        rw [hnone, List.filter_nil]
      · obtain rfl : y = Trie.root := by simpa using hy
        refine List.filter_eq_nil_iff.mpr fun v hv => ?_
        simp [width_of_ends_root variants whitelist pipeline limit hv]
    rw [hvariants, endingAt, hchain, List.filter_flatMap, LinkedTrie.flatMap_markedBelow rowless,
      Variant.withLeadIn, List.filter_flatMap]
    refine List.flatMap_congr fun s _ => ?_
    rw [← row_ends variants whitelist pipeline limit]
    cases (leads variants).find? s <;> rfl
  forkingAt_state text := by
    set a := ofVariants variants whitelist pipeline limit
    have hvariants : a.variants = variants := rfl
    have hchain : a.linked.chain a.forkLinks ((leads variants).state text) = _ :=
      chain_forkLinks variants whitelist pipeline limit (Trie.find?_longest (leads variants) text)
    have rowless (y : Nat) (hy : (!(a.forks[y]?.getD []).isEmpty) = false) :
        a.forks[y]?.getD [] = [] := List.isEmpty_iff.mp (by simpa using hy)
    rw [hvariants, forkingAt, hchain, LinkedTrie.flatMap_markedBelow rowless, Variant.withLeadIn,
      List.map_flatMap]
    exact List.flatMap_congr fun s _ => row_forks variants whitelist pipeline limit s
  width_le := (Ring.le_foldl_max Variant.width variants 0).2

/-- What there is to know of an automaton that is built for some options. -/
structure BuiltFrom (a : Automaton) (o : Options) : Prop where
  sound : a.Sound
  variants_eq : a.variants = o.terms.flatMap Variant.ofTerm
  pipeline_eq : a.pipeline = o.blacklistPipeline
  limit_eq : a.limit = o.limit.getD defaultLimit
  valid : Term.validate o.terms = .ok ()
  whitelist_eq : Whitelist.build o.whitelist o.whitelistPipeline = .ok a.whitelist

theorem build_eq_ok_iff {o : Options} {a : Automaton} :
    build o = .ok a ↔ Term.validate o.terms = .ok () ∧
      ∃ whitelist, Whitelist.build o.whitelist o.whitelistPipeline = .ok whitelist ∧
        ofVariants (o.terms.flatMap Variant.ofTerm) whitelist o.blacklistPipeline
          (o.limit.getD defaultLimit) = a := by
  rw [build, bind_eq_ok_iff]
  simp only [bind_eq_ok_iff, pure, Except.pure, Except.ok.injEq]
  exact ⟨fun ⟨_, h⟩ => h, fun h => ⟨(), h⟩⟩

theorem builtFrom {o : Options} {a : Automaton} (h : build o = .ok a) : a.BuiltFrom o := by
  obtain ⟨hterms, whitelist, hwhitelist, rfl⟩ := build_eq_ok_iff.mp h
  exact ⟨sound_ofVariants _ _ _ _, rfl, rfl, rfl, hterms, hwhitelist⟩

end Automaton

end TermScan
