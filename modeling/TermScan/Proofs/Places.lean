import Mathlib.Data.List.Infix
import TermScan.Proofs.Ring
import TermScan.Transform.Pipeline

/-!
# Places in a text

A site is what its text shows at its bytes: the characters next to it are those that end right
before its first byte and start right behind its last one. A pipeline keeps some of the sites in
their order, so the spans of kept characters lie apart and increase. The characters kept `between`
two indices are what a phrase or a pattern is compared with.
-/
namespace TermScan

/-- The character of a text that ends right before a byte. -/
def charBefore? (text : List Char) (offset : Nat) : Option Char :=
  (takeBytes? offset text).bind List.getLast?

/-- The character of a text that starts right behind a byte. -/
def charAfter? (text : List Char) (last : Nat) : Option Char :=
  (dropBytes? (last + 1) text).bind List.head?

@[simp] theorem byteLength_nil : byteLength [] = 0 := rfl

@[simp] theorem byteLength_cons (c : Char) (text : List Char) :
    byteLength (c :: text) = c.utf8Size + byteLength text := rfl

@[simp] theorem byteLength_append (a b : List Char) :
    byteLength (a ++ b) = byteLength a + byteLength b := by
  induction a with
  | nil => simp
  | cons c a ih => simp [ih, Nat.add_assoc]

@[simp] theorem takeBytes?_append (a b : List Char) :
    takeBytes? (byteLength a) (a ++ b) = some a := by
  induction a with
  | nil => rw [byteLength_nil, takeBytes?]
  | cons c a ih =>
    obtain ⟨n, hn⟩ : ∃ n, c.utf8Size + byteLength a = n + 1 :=
      ⟨c.utf8Size + byteLength a - 1, by have := c.utf8Size_pos; omega⟩
    rw [byteLength_cons, List.cons_append, hn, takeBytes?, if_pos (by omega), ← hn,
      Nat.add_sub_cancel_left, ih]
    rfl

@[simp] theorem dropBytes?_append (a b : List Char) :
    dropBytes? (byteLength a) (a ++ b) = some b := by
  induction a with
  | nil => rw [byteLength_nil, List.nil_append, dropBytes?]
  | cons c a ih =>
    obtain ⟨n, hn⟩ : ∃ n, c.utf8Size + byteLength a = n + 1 :=
      ⟨c.utf8Size + byteLength a - 1, by have := c.utf8Size_pos; omega⟩
    rw [byteLength_cons, List.cons_append, hn, dropBytes?, if_pos (by omega), ← hn,
      Nat.add_sub_cancel_left, ih]

/-- An offset lies between two characters of a text or at one of its ends. -/
def IsBorder (text : List Char) (offset : Nat) : Prop :=
  ∃ a b, text = a ++ b ∧ byteLength a = offset

/-! Sites -/

/-- The place of the character between two parts of a text. -/
def siteBetween (read : List Char) (c : Char) (rest : List Char) : Site :=
  ⟨c, Span.ofChar (byteLength read) c, read.getLast?, rest.head?⟩

theorem getElem?_sitesFrom (read text : List Char) (i : Nat) :
    (sitesFrom (byteLength read) read.getLast? text)[i]? =
      text[i]?.map fun c => siteBetween (read ++ text.take i) c (text.drop (i + 1)) := by
  induction text generalizing read i with
  | nil => simp [sitesFrom]
  | cons c text ih =>
    rw [sitesFrom]
    cases i with
    | zero => simp [siteBetween]
    | succ i =>
      have hnext := ih (read ++ [c]) i
      have hread : (read ++ [c]).getLast? = some c := by simp
      have hlength : byteLength (read ++ [c]) = byteLength read + c.utf8Size := by simp
      rw [hread, hlength] at hnext
      simpa using hnext

theorem getElem?_sites (text : List Char) (i : Nat) :
    (sites text)[i]? =
      text[i]?.map fun c => siteBetween (text.take i) c (text.drop (i + 1)) :=
  getElem?_sitesFrom [] text i

theorem map_char_sites (text : List Char) : (sites text).map Site.char = text :=
  map_char_sitesFrom 0 none text

/-- Every site stands between two parts of its text. -/
theorem exists_siteBetween {text : List Char} {s : Site} (h : s ∈ sites text) :
    ∃ a c b, text = a ++ c :: b ∧ s = siteBetween a c b := by
  obtain ⟨i, hi⟩ := List.mem_iff_getElem?.mp h
  rw [getElem?_sites, Option.map_eq_some_iff] at hi
  obtain ⟨c, hc, rfl⟩ := hi
  obtain ⟨hlt, rfl⟩ := List.getElem?_eq_some_iff.mp hc
  refine ⟨text.take i, text[i], text.drop (i + 1), ?_, rfl⟩
  rw [← List.drop_eq_getElem_cons hlt, List.take_append_drop]

theorem first_le_last (offset : Nat) (c : Char) :
    (Span.ofChar offset c).first ≤ (Span.ofChar offset c).last := by
  have := c.utf8Size_pos
  simp only [Span.ofChar]
  omega

theorem site_first_le_last {text : List Char} {s : Site} (h : s ∈ sites text) :
    s.span.first ≤ s.span.last := by
  obtain ⟨a, c, b, -, rfl⟩ := exists_siteBetween h
  exact first_le_last _ c

theorem site_before {text : List Char} {s : Site} (h : s ∈ sites text) :
    s.before = charBefore? text s.span.first := by
  obtain ⟨a, c, b, rfl, rfl⟩ := exists_siteBetween h
  simp [charBefore?, siteBetween, Span.ofChar]

theorem site_after {text : List Char} {s : Site} (h : s ∈ sites text) :
    s.after = charAfter? text s.span.last := by
  obtain ⟨a, c, b, rfl, rfl⟩ := exists_siteBetween h
  have hlast : byteLength a + c.utf8Size - 1 + 1 = byteLength (a ++ [c]) := by
    have := c.utf8Size_pos
    simp
    omega
  rw [charAfter?, siteBetween, Span.ofChar, hlast, show a ++ c :: b = a ++ [c] ++ b by simp,
    dropBytes?_append]
  rfl

theorem pairwise_sitesFrom (offset : Nat) (before : Option Char) (text : List Char) :
    (sitesFrom offset before text).Pairwise (fun s s' => s.span.last < s'.span.first) ∧
      ∀ s ∈ sitesFrom offset before text, offset ≤ s.span.first := by
  induction text generalizing offset before with
  | nil => simp [sitesFrom]
  | cons c text ih =>
    obtain ⟨hpair, hmin⟩ := ih (offset + c.utf8Size) (some c)
    have hsize := c.utf8Size_pos
    rw [sitesFrom, List.pairwise_cons, List.forall_mem_cons]
    refine ⟨⟨fun s hs => ?_, hpair⟩, Nat.le_refl _, fun s hs => ?_⟩
    · have := hmin s hs
      simp only [Span.ofChar]
      omega
    · exact Nat.le_trans (Nat.le_add_right _ _) (hmin s hs)

/-! Kept characters -/

theorem Run.sites_readSites (r : Run) (places : List Site) :
    ((r.readSites places).1.map Mapped.site).Sublist places := by
  induction places generalizing r with
  | nil => simp [Run.readSites]
  | cons s places ih =>
    rw [Run.readSites]
    split
    · exact (ih _).cons s
    · exact (ih _).cons_cons s

namespace Pipeline

theorem sites_apply (p : Pipeline) (text : List Char) :
    ((p.apply text).map Mapped.site).Sublist (sites text) := Run.sites_readSites _ _

variable {p : Pipeline} {text : List Char} {i j : Nat}

theorem site_mem_of_mem_apply {m : Mapped} (h : m ∈ p.apply text) : m.site ∈ sites text :=
  (p.sites_apply text).subset (List.mem_map.mpr ⟨m, h, rfl⟩)

/-- What is kept has its site in the text. -/
theorem site_mem_sites (hi : i < (p.apply text).length) : (p.apply text)[i].site ∈ sites text :=
  site_mem_of_mem_apply (List.getElem_mem hi)

/-- The spans of what is kept lie apart. -/
theorem pairwise_apply (p : Pipeline) (text : List Char) :
    (p.apply text).Pairwise fun m m' => m.site.span.last < m'.site.span.first :=
  List.pairwise_map.mp (List.Pairwise.sublist (p.sites_apply text)
    (pairwise_sitesFrom 0 none text).1)

/-- What is kept first ends before what is kept later starts. -/
theorem last_lt_first (hi : i < (p.apply text).length) (hj : j < (p.apply text).length)
    (hij : i < j) :
    (p.apply text)[i].site.span.last < (p.apply text)[j].site.span.first :=
  List.pairwise_iff_getElem.mp (p.pairwise_apply text) i j hi hj hij

/-- The bytes of different characters do not overlap. -/
theorem eq_of_overlap (hi : i < (p.apply text).length) (hj : j < (p.apply text).length)
    (h : (p.apply text)[i].site.span.first ≤ (p.apply text)[j].site.span.last)
    (h' : (p.apply text)[j].site.span.first ≤ (p.apply text)[i].site.span.last) : i = j := by
  rcases Nat.lt_trichotomy i j with hij | hij | hij
  · have := last_lt_first hi hj hij
    omega
  · exact hij
  · have := last_lt_first hj hi hij
    omega

/-- Different characters start at different places. -/
theorem eq_of_first_eq (hi : i < (p.apply text).length) (hj : j < (p.apply text).length)
    (h : (p.apply text)[i].site.span.first = (p.apply text)[j].site.span.first) : i = j := by
  have hspan := site_first_le_last (site_mem_sites hi)
  have hspan' := site_first_le_last (site_mem_sites hj)
  exact eq_of_overlap hi hj (by omega) (by omega)

/-- Different characters end at different places. -/
theorem eq_of_last_eq (hi : i < (p.apply text).length) (hj : j < (p.apply text).length)
    (h : (p.apply text)[i].site.span.last = (p.apply text)[j].site.span.last) : i = j := by
  have hspan := site_first_le_last (site_mem_sites hi)
  have hspan' := site_first_le_last (site_mem_sites hj)
  exact eq_of_overlap hi hj (by omega) (by omega)

/-- A pipeline without transformers keeps every character. -/
theorem apply_of_empty (h : p.transformers = []) (text : List Char) :
    p.apply text = (sites text).map fun s => ⟨s.char, s⟩ := by
  have keeps (places : List Site) :
      (Run.readSites ⟨[]⟩ places).1 = places.map fun s => ⟨s.char, s⟩ := by
    induction places with
    | nil => rfl
    | cons s places ih =>
      rw [List.map_cons, ← ih]
      rfl
  rw [apply, Run.apply, start, h]
  exact keeps (sites text)

end Pipeline

/-- The characters kept from one index to another, the latter excluded. -/
def between (kept : List Mapped) (i k : Nat) : List Char :=
  ((kept.take k).drop i).map Mapped.char

section Between

variable (kept : List Mapped)

@[simp] theorem between_self (k : Nat) : between kept k k = [] := by
  rw [between, List.drop_eq_nil_of_le (List.length_take_le k kept)]
  rfl

theorem length_between {i k : Nat} (hk : k ≤ kept.length) : (between kept i k).length = k - i := by
  simp only [between, List.length_map, List.length_drop, List.length_take]
  omega

theorem between_append {i s k : Nat} (hi : i ≤ s) (hs : s ≤ k) :
    between kept i s ++ between kept s k = between kept i k := by
  have htake : (kept.take k).take s = kept.take s := by rw [List.take_take, Nat.min_eq_left hs]
  have hdrop : (kept.take k).drop s = ((kept.take k).drop i).drop (s - i) := by
    rw [List.drop_drop, Nat.add_sub_cancel' hi]
  have htaken : (kept.take s).drop i = ((kept.take k).drop i).take (s - i) := by
    rw [← htake, List.drop_take]
  rw [between, between, between, ← List.map_append, htaken, hdrop, List.take_append_drop]

theorem between_succ {i k : Nat} (hi : i ≤ k) (hk : k < kept.length) :
    between kept i (k + 1) = between kept i k ++ [kept[k].char] := by
  have hone : between kept k (k + 1) = [kept[k].char] := by
    rw [between, List.take_succ_eq_append_getElem hk,
      List.drop_append_of_le_length (by simp; omega),
      List.drop_eq_nil_of_le (List.length_take_le k kept)]
    rfl
  rw [← between_append kept hi (Nat.le_succ k), hone]

/-- A suffix of what has been kept is what was kept from some index on. -/
theorem suffix_between_iff {s : Nat} (hs : s ≤ kept.length) (u : List Char) :
    u <:+ between kept 0 s ↔ u.length ≤ s ∧ between kept (s - u.length) s = u := by
  have hlength : (between kept 0 s).length = s := length_between kept hs
  have hdrop (i : Nat) : (between kept 0 s).drop i = between kept i s := by
    simp [between, List.map_drop]
  rw [List.suffix_iff_eq_drop, hlength, hdrop]
  constructor
  · intro h
    have := congrArg List.length h
    rw [length_between kept hs] at this
    exact ⟨by omega, h.symm⟩
  · exact fun h => h.2.symm

/-- The suffixes of what has been kept, the longest first. -/
theorem tails_between {s : Nat} (hs : s ≤ kept.length) :
    (between kept 0 s).tails = (List.range (s + 1)).map fun i => between kept i s := by
  have hlength : (between kept 0 s).length = s := length_between kept hs
  refine List.ext_getElem (by simp [hlength]) fun i hi hi' => ?_
  rw [List.getElem_tails, List.getElem_map, List.getElem_range, between, between, List.map_drop,
    List.map_drop, List.drop_drop, Nat.zero_add]

/-! Remembered places -/

variable {kept}

/-- Counted back from an index, a ring holds the sites of the characters kept before it. -/
theorem get?_sites_take {capacity k back : Nat} (hback : back < k) (hk : k ≤ kept.length)
    (hcapacity : back < capacity) :
    (((kept.take k).map Mapped.site).foldl Ring.push (.empty capacity)).get? back =
      kept[k - 1 - back]?.map Mapped.site := by
  have hlength : ((kept.take k).map Mapped.site).length = k := by
    rw [List.length_map, List.length_take, Nat.min_eq_left hk]
  rw [Ring.get?_foldl_push (by omega) hcapacity, hlength, List.getElem?_map,
    List.getElem?_take_of_lt (by omega)]

theorem foldl_push_sites_succ (r : Ring Site) {k : Nat} (hk : k < kept.length) :
    (((kept.take k).map Mapped.site).foldl Ring.push r).push kept[k].site =
      ((kept.take (k + 1)).map Mapped.site).foldl Ring.push r := by
  rw [List.take_succ_eq_append_getElem hk, List.map_append, List.foldl_append]
  rfl

end Between

end TermScan
