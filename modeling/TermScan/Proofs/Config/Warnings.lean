import Mathlib.Data.List.Count
import Mathlib.Data.List.Nodup
import TermScan.Config.Load
import TermScan.Proofs.Config.Readers

/-!
# Warnings about keys that nothing reads

A key is ignored if whatever may stand under it makes no difference to the configuration. In the
table of a document, in those of its terms and in that of its transformers the keys that are ignored
are those that are not known, and each of them gives one warning. The tables of single transformers
are not looked at: their keys give no warning, though all but the kind and the keys of the kind are
ignored as well.
-/
namespace TermScan

namespace Config

open Toml

/-! Tables in a document -/

/-- The tables of a document that a configuration is read from. -/
inductive Level
  | document
  | term (index : Nat)
  | transformers
  | transformer (side : String) (index : Nat)
  deriving DecidableEq, Repr

/-- Changes a value that is a table. -/
def changeTable (f : Entries → Entries) : Value → Value
  | .table entries => .table (f entries)
  | v => v

/-- Changes an item of a value that is an array. -/
def changeItem (i : Nat) (f : Value → Value) : Value → Value
  | .array items => .array (items.modify i f)
  | v => v

/-- The table that is an item of a value. -/
def itemTable? (i : Nat) : Value → Option Entries
  | .array items => items[i]?.bind Value.plainEntries?
  | _ => none

namespace Level

/-- Changes the table at a level. -/
def change (f : Entries → Entries) (document : Entries) : Level → Entries
  | .document => f document
  | term i => changeKey "term" (changeItem i (changeTable f)) document
  | transformers => changeKey "transformers" (changeTable f) document
  | transformer side i =>
    changeKey "transformers" (changeTable (changeKey side (changeItem i (changeTable f)))) document

/-- The table at a level, if there is one. A table that counts as a moment is none. -/
def table? (document : Entries) : Level → Option Entries
  | .document => some document
  | term i => (document.lookup "term").bind (itemTable? i)
  | transformers => (document.lookup "transformers").bind Value.plainEntries?
  | transformer side i => do
    let sides ← (document.lookup "transformers").bind Value.plainEntries?
    if side ∈ sideKeys then (sides.lookup side).bind (itemTable? i) else none

/-- The keys of the table at a level. -/
def keys (document : Entries) (level : Level) : List String :=
  ((level.table? document).getD []).map Prod.fst

/-- The known keys of a table that is checked for others. -/
def known? : Level → Option (List String)
  | .document => some configKeys
  | term _ => some termKeys
  | transformers => some sideKeys
  | transformer _ _ => none

end Level

/-- Whatever stands under a key of the table at a level, the configuration is the same. -/
def Ignores (document : Entries) (level : Level) (key : String) : Prop :=
  ∀ v, ofDocument (level.change (changeKey key fun _ => v) document) = ofDocument document

/-! What is ignored -/

section Ignored

variable {document fields : Entries} {c : Config} {level : Level} {key : String}

theorem eq_table_of_plainEntries? {v : Value} (h : v.plainEntries? = some fields) :
    v = .table fields := by
  cases v with
  | table entries =>
    simp only [Value.plainEntries?] at h
    split_ifs at h
    exact congrArg _ (Option.some.inj h)
  | _ => exact nomatch h

theorem exists_item_of_itemTable? {v : Value} {i : Nat} (h : itemTable? i v = some fields) :
    ∃ items, v = .array items ∧ items[i]? = some (.table fields) := by
  cases v with
  | array items =>
    obtain ⟨item, hitem, hplain⟩ := Option.bind_eq_some_iff.mp h
    rw [eq_table_of_plainEntries? hplain] at hitem
    exact ⟨items, rfl, hitem⟩
  | _ => exact nomatch h

/-- Where the table of a term stands. -/
theorem exists_term {i : Nat} (h : (Level.term i).table? document = some fields) :
    ∃ terms, document.lookup "term" = some (.array terms) ∧ terms[i]? = some (.table fields) := by
  obtain ⟨v, hlookup, hitem⟩ := Option.bind_eq_some_iff.mp h
  obtain ⟨terms, rfl, hterm⟩ := exists_item_of_itemTable? hitem
  exact ⟨terms, hlookup, hterm⟩

/-- Where the table of a transformer stands. -/
theorem exists_transformer {side : String} {i : Nat}
    (h : (Level.transformer side i).table? document = some fields) :
    ∃ sides entries, document.lookup "transformers" = some (.table sides) ∧ side ∈ sideKeys ∧
      sides.lookup side = some (.array entries) ∧ entries[i]? = some (.table fields) := by
  obtain ⟨sides, hsides, hentry⟩ := Option.bind_eq_some_iff.mp h
  obtain ⟨v, hlookup, hplain⟩ := Option.bind_eq_some_iff.mp hsides
  obtain rfl := eq_table_of_plainEntries? hplain
  split_ifs at hentry with hside
  obtain ⟨v, hlist, hitem⟩ := Option.bind_eq_some_iff.mp hentry
  obtain ⟨entries, rfl, hentry⟩ := exists_item_of_itemTable? hitem
  exact ⟨sides, entries, hlookup, hside, hlist, hentry⟩

/-- Once a key of the table is given the value, it stands there. -/
theorem lookup_const (h : key ∈ fields.map Prod.fst) (v : Value) :
    (changeKey key (fun _ => v) fields).lookup key = some v := by
  obtain ⟨w, hw⟩ := exists_lookup_of_mem h
  rw [lookup_changeKey_self, hw]
  rfl

/-- A key is ignored unless it is one of those that are read, where a truth value under such a key
is refused. -/
theorem ignores_iff (h : c.ReadFrom document) {known : List String}
    (unread : key ∉ known → ∀ v, c.ReadFrom (level.change (changeKey key fun _ => v) document))
    (read : key ∈ known → ∀ b,
      ¬c.ReadFrom (level.change (changeKey key fun _ => .boolean b) document)) :
    Ignores document level key ↔ key ∉ known := by
  have haccepted := ofDocument_eq_ok_iff.mpr h
  constructor
  · intro hignored hmem
    exact read hmem true (ofDocument_eq_ok_iff.mp ((hignored _).trans haccepted))
  · intro hnot v
    rw [haccepted, ofDocument_eq_ok_iff]
    exact unread hnot v

theorem ignores_document_iff (h : c.ReadFrom document) (hkey : key ∈ document.map Prod.fst) :
    Ignores document .document key ↔ key ∉ configKeys := by
  refine ignores_iff h (fun hnot v => ?_) fun hmem b hread =>
    hread.lookup_ne_truth hmem b (lookup_const hkey _)
  rw [Level.change]
  exact h.congr (lookup_changeKey_of_not_mem hnot)

theorem ignores_term_iff (h : c.ReadFrom document) {i : Nat}
    (htable : (Level.term i).table? document = some fields) (hkey : key ∈ fields.map Prod.fst) :
    Ignores document (.term i) key ↔ key ∉ termKeys := by
  obtain ⟨terms, hlookup, hterm⟩ := exists_term htable
  refine ignores_iff h (fun hnot v => h.changeTerms fun w hw => ?_) fun hmem b hread => ?_
  · obtain rfl := Option.some.inj (hlookup.symm.trans hw)
    refine mapM_modify_of_unseen fun w hw => ?_
    obtain rfl := Option.some.inj (hterm.symm.trans hw)
    exact term?_congr (lookup_changeKey_of_not_mem hnot)
  · exact hread.terms_ne_none hlookup
      (mapM_modify_of_refused hterm (term?_of_truth hmem (lookup_const hkey _)))

theorem ignores_transformers_iff (h : c.ReadFrom document)
    (htable : Level.transformers.table? document = some fields)
    (hkey : key ∈ fields.map Prod.fst) :
    Ignores document .transformers key ↔ key ∉ sideKeys := by
  obtain ⟨v, hlookup, hplain⟩ := Option.bind_eq_some_iff.mp htable
  obtain rfl := eq_table_of_plainEntries? hplain
  refine ignores_iff h (fun hnot v => h.changeTransformers fun w hw => ?_) fun hmem b hread => ?_
  · obtain rfl := Option.some.inj (hlookup.symm.trans hw)
    exact sides?_congr (lookup_changeKey_of_not_mem hnot)
  · exact hread.sides_ne_none hlookup (sides?_of_truth hmem (lookup_const hkey _))

theorem ignores_transformer_iff (h : c.ReadFrom document) {side kind : String} {i : Nat}
    (htable : (Level.transformer side i).table? document = some fields)
    (hkind : fields.lookup "kind" = some (.string kind)) (hkey : key ∈ fields.map Prod.fst) :
    Ignores document (.transformer side i) key ↔ key ∉ "kind" :: kindKeys kind := by
  obtain ⟨sides, entries, hlookup, hside, hlist, hentry⟩ := exists_transformer htable
  refine ignores_iff h (fun hnot v => h.changeTransformers fun w hw => ?_) fun hmem b hread => ?_
  · obtain rfl := Option.some.inj (hlookup.symm.trans hw)
    refine sides?_of_unseen hside fun w hw => ?_
    obtain rfl := Option.some.inj (hlist.symm.trans hw)
    refine mapM_modify_of_unseen fun w hw => ?_
    obtain rfl := Option.some.inj (hentry.symm.trans hw)
    refine transformer?_congr ?_ (lookup_changeKey_of_not_mem hnot)
    exact (lookup_changeKey_of_not_mem hnot "kind" List.mem_cons_self).trans hkind
  · refine hread.sides_ne_none hlookup (sides?_of_refused hside hlist ?_)
    refine mapM_modify_of_refused hentry (transformer?_of_truth (fun hne => ?_) hmem
      (lookup_const hkey _))
    exact (lookup_changeKey_of_ne hne.symm).trans hkind

/-- Where tables are checked, what is ignored are the keys that are not known. -/
theorem ignores_iff_of_known (h : c.ReadFrom document) {known : List String}
    (hknown : level.known? = some known) (hkey : key ∈ level.keys document) :
    Ignores document level key ↔ key ∉ known := by
  obtain ⟨fields, htable, hmem⟩ : ∃ fields, level.table? document = some fields ∧
      key ∈ fields.map Prod.fst := by
    cases htable : level.table? document with
    | none => simp [Level.keys, htable] at hkey
    | some fields => exact ⟨fields, rfl, by simpa [Level.keys, htable] using hkey⟩
  cases level with
  | document =>
    cases htable
    cases hknown
    exact ignores_document_iff h hmem
  | term i =>
    cases hknown
    exact ignores_term_iff h htable hmem
  | transformers =>
    cases hknown
    exact ignores_transformers_iff h htable hmem
  | transformer side i => exact nomatch hknown

end Ignored

/-! Warnings -/

/-- A warning about a key of a table. -/
structure Warning where
  level : Level
  key : String
  deriving DecidableEq, Repr

/-- The key as the report names it. -/
def Warning.name : Warning → String
  | ⟨.document, key⟩ => key
  | ⟨.term i, key⟩ => "term[" ++ toString i ++ "]." ++ key
  | ⟨.transformers, key⟩ => "transformers." ++ key
  | ⟨.transformer side i, key⟩ => "transformers." ++ side ++ "[" ++ toString i ++ "]." ++ key

theorem Warning.name_term (i : Nat) (key : String) :
    Warning.name ⟨.term i, key⟩ = "term[" ++ toString i ++ "]." ++ key := rfl

/-- The number of items under the key of the terms. -/
def termCount (document : Entries) : Nat :=
  match document.lookup "term" with
  | some (.array terms) => terms.length
  | _ => 0

/-- The levels whose tables are checked for keys that are not known. -/
def checkedLevels (document : Entries) : List Level :=
  .document :: (List.range (termCount document)).map .term ++ [.transformers]

/-- The keys at a level that are not known. -/
def Level.unknown (document : Entries) (level : Level) : List String :=
  match level.known? with
  | some known => unknownKeys known ((level.table? document).getD [])
  | none => []

/-- The warnings about a document. -/
def warnings (document : Entries) : List Warning :=
  (checkedLevels document).flatMap fun level => (level.unknown document).map (.mk level)

section Warnings

variable {document : Entries} {level : Level} {key : String}

theorem unknownKeys_nil (known : List String) : unknownKeys known [] = [] := by
  simp [unknownKeys, sortEntries]

theorem unknownTermKeys_eq (terms : List Value) :
    unknownTermKeys terms = (List.range terms.length).flatMap fun i =>
      (unknownKeys termKeys ((itemTable? i (.array terms)).getD [])).map fun key =>
        "term[" ++ toString i ++ "]." ++ key := by
  rw [unknownTermKeys, List.flatMap]
  congr 1
  refine List.ext_getElem (by simp) fun i h _ => ?_
  have hi : i < terms.length := by simpa using h
  simp only [List.getElem_map, List.getElem_zipIdx, List.getElem_range, itemTable?,
    List.getElem?_eq_getElem hi, Option.bind_some, Nat.zero_add]
  cases terms[i].plainEntries? with
  | none => rw [Option.getD_none, unknownKeys_nil]; rfl
  | some fields => rfl

/-- What is reported are the names of the warnings. -/
theorem ignoredKeys_eq : ignoredKeys document = (warnings document).map Warning.name := by
  have hnames : (warnings document).map Warning.name =
      (Level.document.unknown document).map (fun key => Warning.name ⟨.document, key⟩) ++
        (List.range (termCount document)).flatMap (fun i =>
          ((Level.term i).unknown document).map fun key => Warning.name ⟨.term i, key⟩) ++
        (Level.transformers.unknown document).map fun key =>
          Warning.name ⟨.transformers, key⟩ := by
    simp only [warnings, checkedLevels, List.cons_append, List.flatMap_cons, List.flatMap_append,
      List.flatMap_map, List.flatMap_nil, List.append_nil, List.map_append, List.map_flatMap,
      List.map_map, Function.comp_def, List.append_assoc]
  rw [hnames, ignoredKeys]
  refine congrArg₂ (· ++ ·) (congrArg₂ (· ++ ·) ?_ ?_) ?_
  · exact (List.map_id _).symm
  · rw [termCount]
    split
    · next terms hterms =>
      rw [unknownTermKeys_eq]
      simp only [Level.unknown, Level.known?, Level.table?, hterms, Option.bind_some,
        Warning.name_term]
    · simp
  · rw [Level.unknown]
    dsimp only [Level.known?, Level.table?]
    split
    · next sides hsides => rw [hsides]; rfl
    · next hnone => rw [hnone, Option.getD_none, unknownKeys_nil, List.map_nil]

theorem unknownKeys_perm (known : List String) (entries : Entries) :
    (unknownKeys known entries).Perm
      ((entries.map Prod.fst).filter fun key => !known.contains key) :=
  ((List.mergeSort_perm entries _).map Prod.fst).filter _

theorem count_unknownKeys (known : List String) (entries : Entries) :
    (unknownKeys known entries).count key =
      if key ∈ known then 0 else (entries.map Prod.fst).count key := by
  rw [(unknownKeys_perm known entries).count_eq]
  split_ifs with hknown
  · exact List.count_eq_zero.mpr fun hmem => by simp [hknown] at hmem
  · exact List.count_filter (by simpa using hknown)

theorem nodup_checkedLevels : (checkedLevels document).Nodup := by
  have hterms : ((List.range (termCount document)).map Level.term).Nodup :=
    List.nodup_range.map fun _ _ => Level.term.inj
  simp [checkedLevels, List.nodup_append, hterms]

/-- A warning about a level comes from the keys of this level only. -/
theorem count_flatMap_mk (levels : List Level) (hnodup : levels.Nodup)
    (keys : Level → List String) :
    (levels.flatMap fun l => (keys l).map (Warning.mk l)).count ⟨level, key⟩ =
      if level ∈ levels then (keys level).count key else 0 := by
  induction levels with
  | nil => rfl
  | cons l levels ih =>
    obtain ⟨hl, hrest⟩ := List.nodup_cons.mp hnodup
    rw [List.flatMap_cons, List.count_append, ih hrest]
    by_cases heq : level = l
    · subst heq
      have hinj : Function.Injective (Warning.mk level) := fun _ _ h => (Warning.mk.inj h).2
      simp [hl, List.count_map_of_injective _ _ hinj]
    · have hnone : ((keys l).map (Warning.mk l)).count ⟨level, key⟩ = 0 :=
        List.count_eq_zero.mpr fun hmem => by
          obtain ⟨_, -, h⟩ := List.mem_map.mp hmem
          exact heq (Warning.mk.inj h).1.symm
      simp [hnone, heq]

/-- A term that is not there has no keys. -/
theorem keys_of_not_checked {known : List String} (hknown : level.known? = some known)
    (hlevel : level ∉ checkedLevels document) : level.keys document = [] := by
  cases level with
  | document => exact absurd (by simp [checkedLevels]) hlevel
  | transformers => exact absurd (by simp [checkedLevels]) hlevel
  | transformer side i => exact nomatch hknown
  | term i =>
    have hi : termCount document ≤ i := by simpa [checkedLevels] using hlevel
    cases htable : (Level.term i).table? document with
    | none => simp [Level.keys, htable]
    | some fields =>
      obtain ⟨terms, hlookup, hterm⟩ := exists_term htable
      have hlt := (List.getElem?_eq_some_iff.mp hterm).1
      simp only [termCount, hlookup] at hi
      omega

/-- Of a checked level every unknown key gives one warning, and no other key gives any. -/
theorem count_warnings {known : List String} (hknown : level.known? = some known) :
    (warnings document).count ⟨level, key⟩ =
      if key ∈ known then 0 else (level.keys document).count key := by
  have hunknown : (level.unknown document).count key =
      if key ∈ known then 0 else (level.keys document).count key := by
    rw [Level.unknown, hknown]
    exact count_unknownKeys known _
  rw [warnings, count_flatMap_mk _ nodup_checkedLevels]
  split_ifs with hlevel hmem hmem
  · simpa [hmem] using hunknown
  · simpa [hmem] using hunknown
  · rfl
  · rw [keys_of_not_checked hknown hlevel]
    rfl

theorem count_warnings_of_unchecked (h : level.known? = none) :
    (warnings document).count ⟨level, key⟩ = 0 := by
  rw [warnings, count_flatMap_mk _ nodup_checkedLevels]
  simp [Level.unknown, h]

end Warnings

/-! Accepted documents -/

section Accepted

variable {document fields : Entries} {c : Config} {side : String} {i : Nat}

/-- Every transformer of an accepted document names its kind. -/
theorem ReadFrom.exists_kind (h : c.ReadFrom document)
    (htable : (Level.transformer side i).table? document = some fields) :
    ∃ kind, fields.lookup "kind" = some (.string kind) := by
  obtain ⟨sides, entries, hlookup, hside, hlist, hentry⟩ := exists_transformer htable
  have hread : sides? (.table sides) = some (c.blacklistTransformers, c.whitelistTransformers) := by
    simpa [optional?, hlookup] using h.sides
  obtain ⟨transformers, hmap⟩ := exists_transformers hside hread hlist
  obtain ⟨t, ht⟩ := exists_of_mapM_eq_some hmap hentry
  exact Config.exists_kind ht

/-- How warnings match what is ignored in a document. -/
structure WarnedOf (document : Entries) (warned : List Warning) : Prop where
  /-- What is warned about is a key that is ignored. -/
  sound : ∀ w ∈ warned, w.key ∈ w.level.keys document ∧ Ignores document w.level w.key
  /-- At the levels that are checked an ignored key is warned about as often as it stands there. -/
  complete : ∀ level key, level.known?.isSome → key ∈ level.keys document →
    Ignores document level key →
      warned.count ⟨level, key⟩ = (level.keys document).count key
  /-- The table of a transformer is not checked, though it ignores all keys that its kind does not
  read. -/
  unchecked : ∀ side i fields, (Level.transformer side i).table? document = some fields →
    ∃ kind, fields.lookup "kind" = some (.string kind) ∧ ∀ key ∈ fields.map Prod.fst,
      (Ignores document (.transformer side i) key ↔ key ∉ "kind" :: kindKeys kind) ∧
        Warning.mk (.transformer side i) key ∉ warned

theorem ReadFrom.warnedOf (h : c.ReadFrom document) : WarnedOf document (warnings document) where
  sound w hw := by
    obtain ⟨level, key⟩ := w
    have hpos : 0 < (warnings document).count ⟨level, key⟩ := List.count_pos_iff.mpr hw
    cases hknown : level.known? with
    | none => simp [count_warnings_of_unchecked hknown] at hpos
    | some known =>
      rw [count_warnings hknown] at hpos
      split_ifs at hpos with hmem
      · exact absurd hpos (Nat.lt_irrefl 0)
      have hkey : key ∈ level.keys document := List.count_pos_iff.mp hpos
      exact ⟨hkey, (ignores_iff_of_known h hknown hkey).mpr hmem⟩
  complete level key hchecked hkey hignored := by
    obtain ⟨known, hknown⟩ := Option.isSome_iff_exists.mp hchecked
    rw [count_warnings hknown, if_neg ((ignores_iff_of_known h hknown hkey).mp hignored)]
  unchecked side i fields htable := by
    obtain ⟨kind, hkind⟩ := h.exists_kind htable
    refine ⟨kind, hkind, fun key hkey => ⟨ignores_transformer_iff h htable hkind hkey, ?_⟩⟩
    exact List.count_eq_zero.mp (count_warnings_of_unchecked rfl)

end Accepted

/-! Reports -/

section Reports

variable {read : String → Option Entries} {content path : String} {document : Entries} {c : Config}
  {events : List Event}

theorem parse_accepts_iff :
    parse read content path = .ok c ↔
      ∃ document, read content = some document ∧ ofDocument document = .ok c := by
  rw [parse]
  cases read content with
  | none => simp
  | some document => cases h : ofDocument document <;> simp [h, Except.mapError]

theorem report_eq :
    report path document = (warnings document).map fun w => .unknownField path w.name := by
  rw [report, ignoredKeys_eq, List.map_map]
  rfl

/-- A text that is accepted is that of a document, and the warnings about it are reported. -/
theorem parseReporting_eq_ok_iff :
    parseReporting read content path = (.ok c, events) ↔
      ∃ document, read content = some document ∧ ofDocument document = .ok c ∧
        events = (warnings document).map fun w => .unknownField path w.name := by
  rw [parseReporting, Prod.mk.injEq, parse_accepts_iff]
  constructor
  · rintro ⟨⟨document, hread, haccepted⟩, hevents⟩
    rw [hread, Option.map_some, Option.getD_some, report_eq] at hevents
    exact ⟨document, hread, haccepted, hevents.symm⟩
  · rintro ⟨document, hread, haccepted, rfl⟩
    refine ⟨⟨document, hread, haccepted⟩, ?_⟩
    rw [hread, Option.map_some, Option.getD_some, report_eq]

/-- If a text is accepted, the report consists of warnings that match what is ignored in the
document. -/
theorem warnings_exact (read : String → Option Entries) {content path : String} {c : Config}
    {events : List Event} (h : parseReporting read content path = (.ok c, events)) :
    ∃ document warned, read content = some document ∧ ofDocument document = .ok c ∧
      events = warned.map (fun w => .unknownField path w.name) ∧ WarnedOf document warned := by
  obtain ⟨document, hdocument, hread, hevents⟩ := parseReporting_eq_ok_iff.mp h
  exact ⟨document, warnings document, hdocument, hread, hevents,
    (ofDocument_eq_ok_iff.mp hread).warnedOf⟩

end Reports

/-! A misspelt threshold -/

/-- A text with an unknown key of its own and one in the table of a transformer. -/
def misspelt : String :=
  "version = 1\ncolour = 2\n[transformers]\n" ++
    "blacklist = [\x7b kind = 'collapse-duplicates', treshold = 2 \x7d]\n"

/-- The document of that text. -/
def misspeltDocument : Entries :=
  [("version", .integer 1), ("colour", .integer 2), ("transformers", .table
    [("blacklist", .array [.table [("kind", .string "collapse-duplicates"),
      ("treshold", .integer 2)]])])]

/-- A reader that knows this text only. -/
def readMisspelt (content : String) : Option Entries :=
  if content = misspelt then some misspeltDocument else none

theorem read_misspelt : readMisspelt misspelt = some misspeltDocument := if_pos rfl

/-- Only the unknown key of the document gives a warning. -/
theorem warnings_misspelt : warnings misspeltDocument = [⟨.document, "colour"⟩] := by
  have hunknown : Level.document.unknown misspeltDocument = ["colour"] :=
    List.perm_singleton.mp ((unknownKeys_perm _ _).trans (.of_eq (by decide)))
  have hside : Level.transformers.unknown misspeltDocument = [] :=
    List.perm_nil.mp ((unknownKeys_perm _ _).trans (.of_eq (by decide)))
  rw [warnings, show checkedLevels misspeltDocument = [.document, .transformers] from rfl,
    List.flatMap_cons, List.flatMap_cons, hunknown, hside]
  rfl

/-- The threshold is the one that is taken if there is none. -/
theorem parseReporting_misspelt : parseReporting readMisspelt misspelt "a.toml" =
    (.ok ⟨1, [], [], [.collapseDuplicates 1 []], [], none⟩, [.unknownField "a.toml" "colour"]) := by
  refine parseReporting_eq_ok_iff.mpr ⟨misspeltDocument, read_misspelt, rfl, ?_⟩
  rw [warnings_misspelt]
  rfl

theorem warnings_exact_misspelt : ∃ c document warned,
    parseReporting readMisspelt misspelt "a.toml" = (.ok c, [.unknownField "a.toml" "colour"]) ∧
    readMisspelt misspelt = some document ∧
    [Event.unknownField "a.toml" "colour"] = warned.map (fun w => .unknownField "a.toml" w.name) ∧
    WarnedOf document warned := by
  obtain ⟨document, warned, hdocument, -, hevents, hwarned⟩ :=
    warnings_exact readMisspelt parseReporting_misspelt
  exact ⟨_, document, warned, parseReporting_misspelt, hdocument, hevents, hwarned⟩

/-- Not every key that is ignored is warned about. -/
theorem ignored_unwarned :
    ¬∀ (read : String → Option Entries) (content path : String) (c : Config) (events : List Event)
      (document : Entries) (level : Level) (key : String),
      parseReporting read content path = (.ok c, events) → read content = some document →
      key ∈ level.keys document → Ignores document level key →
      .unknownField path (Warning.name ⟨level, key⟩) ∈ events := by
  intro hall
  obtain ⟨document, hdocument, haccepted, -⟩ :=
    parseReporting_eq_ok_iff.mp parseReporting_misspelt
  obtain rfl := Option.some.inj (read_misspelt.symm.trans hdocument)
  have hignored : Ignores misspeltDocument (.transformer "blacklist" 0) "treshold" :=
    (ignores_transformer_iff (ofDocument_eq_ok_iff.mp haccepted) rfl rfl (by decide)).mpr
      (by decide)
  have h := hall readMisspelt misspelt "a.toml" _ _ _ _ _ parseReporting_misspelt read_misspelt
    (by decide) hignored
  exact absurd h (by decide)

end Config

end TermScan
