import Mathlib.Data.Finset.Card
import TermScan.EdgeMap

/-!
# An edge map is a finite map

Whatever holds it, a map is known by its lookups: setting a key changes the lookup of that key and
of no other, also where the map moves into another store, and the entries are the pairs that
lookups find. The number of keys and what they are like are kept beside them, and the invariant says
that they are right and that the store is the one that suits them. So a map built by setting keys in
any order holds each of them once, with its last value, and a key that is set again is not counted.
-/
namespace TermScan.EdgeMap

variable {β : Type}

/-! Slots -/

theorem slot?_eq_some_iff {key : Char} {i : Fin 26} : slot? key = some i ↔ slotKey i = key := by
  unfold slot? slotKey
  constructor
  · intro h
    split at h
    · next hkey =>
      simp only [Option.some.injEq] at h
      subst h
      have lower : 97 ≤ key.toNat := hkey.1
      rw [show 97 + (key.toNat - 97) = key.toNat by omega, Char.ofNat_toNat]
    · contradiction
  · rintro rfl
    revert i
    decide

theorem isLower_iff_slot? {key : Char} : key.isLower ↔ (slot? key).isSome := by
  unfold slot? Char.isLower
  split
  · next h => simpa [Char.le_def] using h
  · next h => simpa [Char.le_def] using h

theorem isLower_iff {key : Char} : key.isLower ↔ 'a' ≤ key ∧ key ≤ 'z' := by
  rw [isLower_iff_slot?, slot?]
  split <;> simp_all

theorem slotKey_injective : Function.Injective slotKey := by
  intro i j h
  have hi := slot?_eq_some_iff.mpr (rfl : slotKey i = slotKey i)
  rw [h, slot?_eq_some_iff.mpr rfl] at hi
  exact (Option.some.inj hi).symm

theorem mem_slotEntries {slots : Vector (Option β) 26} {key : Char} {value : β} :
    (key, value) ∈ slotEntries slots ↔
      ∃ i, slotKey i = key ∧ slots[i]? = some (some value) := by
  simp [slotEntries, and_comm]

theorem nodup_slotEntries (slots : Vector (Option β) 26) :
    ((slotEntries slots).map Prod.fst).Nodup := by
  rw [slotEntries, List.map_filterMap]
  refine (List.nodup_finRange 26).filterMap fun i j key hi hj => slotKey_injective ?_
  rw [Option.map_map, Option.mem_def, Option.map_eq_some_iff] at hi hj
  obtain ⟨_, _, rfl⟩ := hi
  obtain ⟨_, _, h⟩ := hj
  exact h.symm

/-! Lists of pairs -/

theorem lookup_cons_ite (key k : Char) (v : β) (rest : List (Char × β)) :
    ((k, v) :: rest).lookup key = if key = k then some v else rest.lookup key := by
  rw [List.lookup_cons]
  by_cases h : key = k
  · simp [h]
  · have : (key == k) = false := by simpa using h
    simp [this, h]

theorem lookup_eq_some_iff {entries : List (Char × β)} (nodup : (entries.map Prod.fst).Nodup)
    {key : Char} {value : β} : entries.lookup key = some value ↔ (key, value) ∈ entries := by
  induction entries with
  | nil => simp
  | cons e rest ih =>
    obtain ⟨k, v⟩ := e
    rw [List.map_cons, List.nodup_cons] at nodup
    rw [lookup_cons_ite]
    by_cases h : key = k
    · subst h
      have absent : (key, value) ∉ rest := fun hmem =>
        nodup.1 (List.mem_map.mpr ⟨_, hmem, rfl⟩)
      simp [absent, eq_comm]
    · simp [ih nodup.2, h]

theorem lookup_setEntry (key key' : Char) (value : β) (entries : List (Char × β)) :
    (setEntry key value entries).lookup key' =
      if key' = key then some value else entries.lookup key' := by
  induction entries with
  | nil => simp [setEntry, lookup_cons_ite]
  | cons e rest ih =>
    obtain ⟨k, v⟩ := e
    by_cases hk : k = key
    · subst hk
      by_cases h : key' = k <;> simp [setEntry, lookup_cons_ite, h]
    · by_cases h : key' = k
      · subst h
        simp [setEntry, hk]
      · simp [setEntry, hk, lookup_cons_ite, h, ih]

theorem mem_keys_setEntry {key key' : Char} {value : β} {entries : List (Char × β)} :
    key' ∈ (setEntry key value entries).map Prod.fst ↔
      key' = key ∨ key' ∈ entries.map Prod.fst := by
  induction entries with
  | nil => simp [setEntry]
  | cons e rest ih =>
    obtain ⟨k, v⟩ := e
    by_cases hk : k = key
    · subst hk; simp [setEntry]
    · simp only [setEntry, if_neg hk, List.map_cons, List.mem_cons, ih]
      tauto

theorem nodup_setEntry {key : Char} {value : β} {entries : List (Char × β)}
    (nodup : (entries.map Prod.fst).Nodup) : ((setEntry key value entries).map Prod.fst).Nodup := by
  induction entries with
  | nil => simp [setEntry]
  | cons e rest ih =>
    obtain ⟨k, v⟩ := e
    rw [List.map_cons, List.nodup_cons] at nodup
    by_cases hk : k = key
    · subst hk
      simpa [setEntry] using nodup
    · rw [setEntry, if_neg hk, List.map_cons, List.nodup_cons, mem_keys_setEntry]
      exact ⟨by rintro (h | h); exacts [hk h, nodup.1 h], ih nodup.2⟩

/-! Stores -/

namespace Store

def keys (s : Store β) : List Char := s.entries.map Prod.fst

variable {s : Store β}

theorem get?_eq_some_iff (nodup : s.keys.Nodup) {key : Char} {value : β} :
    s.get? key = some value ↔ (key, value) ∈ s.entries := by
  cases s with
  | array entries => exact lookup_eq_some_iff nodup
  | bucket slots => simp [get?, entries, mem_slotEntries, Option.bind_eq_some_iff,
      slot?_eq_some_iff]
  | hash table => exact Std.HashMap.mem_toList_iff_getElem?_eq_some.symm

theorem mem_keys_iff (nodup : s.keys.Nodup) {key : Char} :
    key ∈ s.keys ↔ (s.get? key).isSome := by
  simp [Option.isSome_iff_exists, get?_eq_some_iff nodup, keys]

/-- The keys are those that lookups find. -/
theorem perm_keys (nodup : s.keys.Nodup) {keys : List Char} (nodup' : keys.Nodup)
    (h : ∀ key, (s.get? key).isSome ↔ key ∈ keys) : s.keys.Perm keys :=
  (List.perm_ext_iff_of_nodup nodup nodup').mpr fun key => by rw [mem_keys_iff nodup, h]

theorem isLower_of_mem_bucket {slots : Vector (Option β) 26} {key : Char}
    (h : ((bucket slots).get? key).isSome) : key.isLower := by
  rw [isLower_iff_slot?]
  cases hslot : slot? key with
  | none => simp [get?, hslot] at h
  | some i => rfl

/-- A row of slots can only take lowercase letters. -/
def Takes (b : Backing) (key : Char) : Prop := b = .bucket → key.isLower

theorem takes_of_isSome {key : Char} (h : (s.get? key).isSome) : Takes s.backing key := by
  cases s with
  | array items => rintro ⟨⟩
  | bucket slots => exact fun _ => isLower_of_mem_bucket h
  | hash table => rintro ⟨⟩

@[simp] theorem backing_write (s : Store β) (key : Char) (value : β) :
    (s.write key value).backing = s.backing := by
  cases s with
  | bucket slots => cases h : slot? key <;> simp [write, h, backing]
  | _ => rfl

theorem get?_write {key : Char} (takes : Takes s.backing key) (value : β) (key' : Char) :
    (s.write key value).get? key' = if key' = key then some value else s.get? key' := by
  cases s with
  | array entries => exact lookup_setEntry key key' value entries
  | bucket slots =>
    obtain ⟨i, hi⟩ := Option.isSome_iff_exists.mp (isLower_iff_slot?.mp (takes rfl))
    have hkey := slot?_eq_some_iff.mp hi
    simp only [write, hi, get?]
    by_cases h : key' = key
    · subst h
      simp [hi]
    · rw [if_neg h]
      cases hj : slot? key' with
      | none => rfl
      | some j =>
        have : i ≠ j := by
          rintro rfl
          exact h ((slot?_eq_some_iff.mp hj).symm.trans hkey)
        have : i.val ≠ j.val := fun hval => this (Fin.ext hval)
        simp [Vector.getElem_set, this]
  | hash table =>
    simp only [write, get?, Std.HashMap.getElem?_insert, beq_iff_eq]
    by_cases h : key' = key
    · simp [h]
    · simp [h, Ne.symm h]

theorem nodup_keys_hash (table : Std.HashMap Char β) : (hash table).keys.Nodup := by
  have distinct := Std.HashMap.distinct_keys (m := table)
  rw [← Std.HashMap.map_fst_toList_eq_keys] at distinct
  exact distinct.imp fun h => by simpa using h

theorem nodup_keys_write (nodup : s.keys.Nodup) (key : Char) (value : β) :
    (s.write key value).keys.Nodup := by
  cases s with
  | array entries => exact nodup_setEntry nodup
  | bucket slots => cases h : slot? key <;> simp only [write, h] <;> exact nodup_slotEntries _
  | hash table => exact nodup_keys_hash _

/-- The keys once one of them is written anew are the same. -/
theorem perm_keys_of_old (nodup : s.keys.Nodup) {key : Char} (old : (s.get? key).isSome)
    (value : β) : (s.write key value).keys.Perm s.keys :=
  perm_keys (nodup_keys_write nodup key value) nodup fun k => by
    rw [get?_write (takes_of_isSome old), mem_keys_iff nodup]
    split_ifs with h <;> simp [h, old]

/-- A key that is not there is one more. -/
theorem perm_keys_of_new (nodup : s.keys.Nodup) {key : Char} (new : s.get? key = none)
    (takes : Takes s.backing key) (value : β) : (s.write key value).keys.Perm (key :: s.keys) := by
  have absent : key ∉ s.keys := by simp [mem_keys_iff nodup, new]
  refine perm_keys (nodup_keys_write nodup key value) (List.nodup_cons.mpr ⟨absent, nodup⟩)
    fun k => ?_
  rw [get?_write takes, List.mem_cons, mem_keys_iff nodup]
  split_ifs with h <;> simp [h]

/-! Moving -/

theorem lookup_eq_none_iff {entries : List (Char × β)} {key : Char} :
    entries.lookup key = none ↔ key ∉ entries.map Prod.fst := by
  induction entries with
  | nil => simp
  | cons e rest ih =>
    obtain ⟨k, v⟩ := e
    by_cases h : key = k <;> simp [lookup_cons_ite, h, ih]

theorem writeAll {items : List (Char × β)} (nodup : (items.map Prod.fst).Nodup) {s : Store β}
    (distinct : s.keys.Nodup) (takes : ∀ e ∈ items, Takes s.backing e.1) :
    let s' := items.foldl (fun t e => t.write e.1 e.2) s
    s'.keys.Nodup ∧ s'.backing = s.backing ∧
      ∀ key, s'.get? key = (items.lookup key).or (s.get? key) := by
  induction items generalizing s with
  | nil => exact ⟨distinct, rfl, by simp⟩
  | cons e rest ih =>
    obtain ⟨k, v⟩ := e
    rw [List.map_cons, List.nodup_cons] at nodup
    rw [List.forall_mem_cons] at takes
    have ih := ih nodup.2 (nodup_keys_write distinct k v) (by simpa using takes.2)
    rw [List.foldl_cons]
    refine ⟨ih.1, by rw [ih.2.1, backing_write], fun key => ?_⟩
    rw [ih.2.2, get?_write takes.1, lookup_cons_ite]
    by_cases h : key = k
    · subst h
      rw [if_pos rfl, if_pos rfl, lookup_eq_none_iff.mpr nodup.1]
      rfl
    · rw [if_neg h, if_neg h]

theorem keys_emptyOf (b : Backing) : (emptyOf b : Store β).keys = [] := by
  cases b with
  | array => rfl
  | bucket =>
    rw [List.eq_nil_iff_forall_not_mem]
    intro key h
    obtain ⟨e, he, rfl⟩ := List.mem_map.mp h
    obtain ⟨i, -, hi⟩ := mem_slotEntries.mp he
    simp at hi
  | hash => simp [keys, emptyOf, entries]

theorem get?_emptyOf (b : Backing) (key : Char) : (emptyOf b : Store β).get? key = none := by
  have nodup : (emptyOf b : Store β).keys.Nodup := by simp [keys_emptyOf]
  rw [← Option.not_isSome_iff_eq_none, ← mem_keys_iff nodup, keys_emptyOf]
  exact List.not_mem_nil

/-- A move keeps every lookup. -/
theorem moveTo_spec (nodup : s.keys.Nodup) {target : Backing}
    (takes : ∀ key ∈ s.keys, Takes target key) :
    (s.moveTo target).keys.Nodup ∧ (s.moveTo target).backing = target ∧
      ∀ key, (s.moveTo target).get? key = s.get? key := by
  have backing_emptyOf : (emptyOf target : Store β).backing = target := by cases target <;> rfl
  obtain ⟨nodup', hbacking, hget⟩ := writeAll (s := emptyOf target) nodup (by simp [keys_emptyOf])
    (by rw [backing_emptyOf]; exact fun e he => takes e.1 (List.mem_map.mpr ⟨e, he, rfl⟩))
  refine ⟨nodup', hbacking.trans backing_emptyOf, fun key => ?_⟩
  rw [moveTo, hget, get?_emptyOf, Option.or_none]
  ext value
  rw [get?_eq_some_iff nodup, lookup_eq_some_iff nodup]

end Store

/-! Setting a key -/

open Store

def keys (m : EdgeMap β) : List Char := m.entries.map Prod.fst

/-- What every map that is built by setting keys satisfies: no key stands twice, what is kept beside
the keys is right, and the store is the one that suits it. -/
structure Valid (m : EdgeMap β) : Prop where
  nodup_keys : m.keys.Nodup
  size_eq : m.size = m.keys.length
  allLower_eq : m.allLower = m.keys.all Char.isLower
  backing_eq : m.backing = .choose m.size m.allLower

theorem valid_empty : (empty : EdgeMap β).Valid := ⟨List.nodup_nil, rfl, rfl, rfl⟩

variable {m : EdgeMap β} {key : Char}

theorem mem_keys_iff (valid : m.Valid) : key ∈ m.keys ↔ (m.get? key).isSome :=
  Store.mem_keys_iff valid.nodup_keys

theorem Backing.choose_eq_bucket {size : Nat} {lower : Bool} (h : choose size lower = bucket) :
    lower = true := by
  unfold choose at h
  split_ifs at h with few hlower
  exact hlower

/-- Where a new key moves a map, the new store can take all its keys. -/
theorem takes_backingWith (valid : m.Valid) (key : Char) :
    Takes (m.backingWith key) key ∧ ∀ k ∈ m.keys, Takes (m.backingWith key) k := by
  have lower (h : m.backingWith key = .bucket) : m.keys.all Char.isLower ∧ key.isLower := by
    rw [← valid.allLower_eq]
    exact Bool.and_eq_true_iff.mp (Backing.choose_eq_bucket h)
  exact ⟨fun h => (lower h).2, fun k hk h => List.all_eq_true.mp (lower h).1 k hk⟩

/-- The store that a new key is written into, as `add` leaves it. -/
theorem exists_store_add (valid : m.Valid) (key : Char) (value : β) :
    ∃ s : Store β, (m.add key value).store = s.write key value ∧ s.keys.Nodup ∧
      s.backing = m.backingWith key ∧ ∀ k, s.get? k = m.get? k := by
  rw [add]
  by_cases same : m.backingWith key = m.backing
  · simp only [if_pos same]
    exact ⟨m.store, rfl, valid.nodup_keys, same.symm, fun _ => rfl⟩
  · simp only [if_neg same]
    exact ⟨_, rfl, moveTo_spec valid.nodup_keys (takes_backingWith valid key).2⟩

theorem set_of_old (old : (m.get? key).isSome) (value : β) :
    m.set key value = { m with store := m.store.write key value } := by rw [set, if_pos old]

theorem set_of_new (new : m.get? key = none) (value : β) : m.set key value = m.add key value := by
  rw [set, new, if_neg (by simp)]

/-- Setting a key changes the lookup of that key and of no other. -/
theorem get?_set (valid : m.Valid) (key : Char) (value : β) (key' : Char) :
    (m.set key value).get? key' = if key' = key then some value else m.get? key' := by
  cases h : m.get? key with
  | some old =>
    have old : (m.get? key).isSome := by simp [h]
    rw [set_of_old old]
    exact get?_write (takes_of_isSome old) value key'
  | none =>
    obtain ⟨s, hstore, -, hbacking, hget⟩ := exists_store_add valid key value
    rw [set_of_new h, EdgeMap.get?, hstore,
      get?_write (by rw [hbacking]; exact (takes_backingWith valid key).1), hget]

theorem valid_of_old (valid : m.Valid) (old : (m.get? key).isSome) (value : β) :
    (m.set key value).Valid := by
  have perm : (m.set key value).keys.Perm m.keys := by
    rw [set_of_old old]
    exact perm_keys_of_old valid.nodup_keys old value
  refine ⟨perm.nodup_iff.mpr valid.nodup_keys, ?_, ?_, ?_⟩
  · rw [perm.length_eq, set_of_old old]
    exact valid.size_eq
  · rw [perm.all_eq, set_of_old old]
    exact valid.allLower_eq
  · rw [set_of_old old]
    exact (backing_write m.store key value).trans valid.backing_eq

theorem valid_of_new (valid : m.Valid) (new : m.get? key = none) (value : β) :
    (m.set key value).Valid := by
  obtain ⟨s, hstore, nodup, hbacking, hget⟩ := exists_store_add valid key value
  have takes : Takes s.backing key := hbacking ▸ (takes_backingWith valid key).1
  have perm : (m.add key value).keys.Perm (key :: m.keys) := by
    have hkeys : s.keys.Perm m.keys := perm_keys nodup valid.nodup_keys fun k => by
      rw [hget, mem_keys_iff valid]
    show (m.add key value).store.keys.Perm _
    rw [hstore]
    exact (perm_keys_of_new nodup (hget key ▸ new) takes value).trans (hkeys.cons key)
  have absent : key ∉ m.keys := by simp [mem_keys_iff valid, new]
  rw [set_of_new new]
  refine ⟨perm.nodup_iff.mpr (List.nodup_cons.mpr ⟨absent, valid.nodup_keys⟩), ?_, ?_, ?_⟩
  · rw [perm.length_eq, List.length_cons, ← valid.size_eq]
    rfl
  · rw [perm.all_eq, List.all_cons, ← valid.allLower_eq, Bool.and_comm]
    rfl
  · rw [backing, hstore, backing_write, hbacking]
    rfl

theorem valid_set (valid : m.Valid) (key : Char) (value : β) : (m.set key value).Valid := by
  cases h : m.get? key with
  | some old => exact valid_of_old valid (by simp [h]) value
  | none => exact valid_of_new valid h value

/-- A key that is set again changes neither the number of keys nor what they are like, nor what
holds them. -/
theorem kept_of_old (old : (m.get? key).isSome) (value : β) :
    (m.set key value).size = m.size ∧ (m.set key value).allLower = m.allLower ∧
      (m.set key value).backing = m.backing := by
  rw [set_of_old old]
  exact ⟨rfl, rfl, backing_write m.store key value⟩

theorem mem_entries_iff (valid : m.Valid) {key : Char} {value : β} :
    (key, value) ∈ m.entries ↔ m.get? key = some value :=
  (get?_eq_some_iff valid.nodup_keys).symm

/-! Setting several keys -/

/-- The map after keys have been set in order. -/
def setAll (m : EdgeMap β) (writes : List (Char × β)) : EdgeMap β :=
  writes.foldl (fun m e => m.set e.1 e.2) m

/-- The value that a key has been given last. -/
def lastValue? (writes : List (Char × β)) (key : Char) : Option β := writes.reverse.lookup key

theorem lastValue?_cons (e : Char × β) (writes : List (Char × β)) (key : Char) :
    lastValue? (e :: writes) key =
      (lastValue? writes key).or (if key = e.1 then some e.2 else none) := by
  rw [lastValue?, List.reverse_cons, List.lookup_append, lookup_cons_ite]
  rfl

theorem lastValue?_eq_none_iff {writes : List (Char × β)} {key : Char} :
    lastValue? writes key = none ↔ key ∉ writes.map Prod.fst := by
  rw [lastValue?, lookup_eq_none_iff, List.map_reverse, List.mem_reverse]

/-- Setting keys keeps a map valid, and what is set hides what the map held. -/
theorem setAll_spec {m : EdgeMap β} (valid : m.Valid) (writes : List (Char × β)) :
    (m.setAll writes).Valid ∧
      ∀ key, (m.setAll writes).get? key = (lastValue? writes key).or (m.get? key) := by
  induction writes generalizing m with
  | nil => exact ⟨valid, fun _ => rfl⟩
  | cons e writes ih =>
    obtain ⟨hvalid, hget⟩ := ih (valid_set valid e.1 e.2)
    refine ⟨hvalid, fun key => ?_⟩
    have hset := get?_set valid e.1 e.2 key
    rw [lastValue?_cons, Option.or_assoc]
    refine (hget key).trans (congrArg _ ?_)
    rw [hset]
    split_ifs <;> rfl

/-- Whatever keys have been set, and in whichever order, each of them is held and counted once, with
the value it has been given last, and no other key is held. Up to ten keys are a list of pairs; more
are a row of slots if all of them are lowercase letters, and a hash table otherwise. A key that is
set again changes nothing but its value. -/
theorem setAll_exact (writes : List (Char × β)) :
    let m : EdgeMap β := empty.setAll writes
    let keys := writes.map Prod.fst
    (∀ key, m.get? key = lastValue? writes key) ∧
    (∀ key, m.get? key = none ↔ key ∉ keys) ∧
    m.size = keys.toFinset.card ∧
    (m.entries.map Prod.fst).Nodup ∧
    (∀ key value, (key, value) ∈ m.entries ↔ lastValue? writes key = some value) ∧
    (m.backing =
      if m.size ≤ 10 then .array
      else if keys.all fun key => 'a' ≤ key && key ≤ 'z' then .bucket
      else .hash) ∧
    (m.allLower = keys.all fun key => 'a' ≤ key && key ≤ 'z') ∧
    ∀ key ∈ keys, ∀ value, (m.set key value).size = m.size ∧
      (m.set key value).allLower = m.allLower ∧ (m.set key value).backing = m.backing := by
  intro m keys
  obtain ⟨valid, hget⟩ := setAll_spec (valid_empty (β := β)) writes
  have hlast (key : Char) : m.get? key = lastValue? writes key :=
    (hget key).trans Option.or_none
  have hnone (key : Char) : m.get? key = none ↔ key ∉ keys := by
    rw [hlast, lastValue?_eq_none_iff]
  have hsome (key : Char) : (m.get? key).isSome ↔ key ∈ keys := by
    rw [← not_iff_not, Option.not_isSome_iff_eq_none, hnone]
  have perm : m.keys.Perm keys.dedup :=
    perm_keys valid.nodup_keys keys.nodup_dedup fun key => by
      rw [List.mem_dedup]
      exact hsome key
  have hlower : m.allLower = keys.all fun key => 'a' ≤ key && key ≤ 'z' := by
    rw [valid.allLower_eq, perm.all_eq, Bool.eq_iff_iff, List.all_eq_true, List.all_eq_true]
    simp only [List.mem_dedup, isLower_iff, Bool.and_eq_true, decide_eq_true_iff]
  refine ⟨hlast, hnone, ?_, valid.nodup_keys, fun key value => ?_, ?_, hlower,
    fun key hkey value => kept_of_old ((hsome key).mpr hkey) value⟩
  · rw [valid.size_eq, perm.length_eq, List.card_toFinset]
  · rw [mem_entries_iff valid, hlast]
  · rw [valid.backing_eq, hlower]
    rfl

end TermScan.EdgeMap
