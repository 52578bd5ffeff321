import Mathlib.Data.List.Basic
import TermScan.Config.Decode

/-!
# What readers of configurations look at

A table is read key by key: its reader looks at what stands under the keys that it knows, and at
nothing else. So a value under another key may be changed in any way, and a change under a known key
matters only if the reader of this key sees it. A truth value is what no known key admits.
-/
namespace TermScan

namespace Toml

/-- Changes what stands under a key. -/
def changeKey (key : String) (f : Value → Value) (entries : Entries) : Entries :=
  entries.map fun e => if e.1 = key then (e.1, f e.2) else e

variable {key : String} {f : Value → Value} {entries : Entries}

theorem changeKey_cons (key : String) (f : Value → Value) (e : String × Value) (rest : Entries) :
    changeKey key f (e :: rest) =
      (e.1, if e.1 = key then f e.2 else e.2) :: changeKey key f rest := by
  rw [changeKey, List.map_cons, ← changeKey]
  split_ifs <;> rfl

theorem lookup_changeKey_self :
    (changeKey key f entries).lookup key = (entries.lookup key).map f := by
  induction entries with
  | nil => rfl
  | cons e rest ih =>
    obtain ⟨k, v⟩ := e
    by_cases hk : key = k
    · subst hk
      simp [changeKey_cons]
    · have hne : (key == k) = false := by simpa using hk
      simp [changeKey_cons, List.lookup_cons, hne, ih]

theorem lookup_changeKey_of_ne {k : String} (h : k ≠ key) :
    (changeKey key f entries).lookup k = entries.lookup k := by
  induction entries with
  | nil => rfl
  | cons e rest ih =>
    obtain ⟨k', v⟩ := e
    by_cases hk : k = k'
    · subst hk
      simp [changeKey_cons, h]
    · have hne : (k == k') = false := by simpa using hk
      simp [changeKey_cons, List.lookup_cons, hne, ih]

/-- What stands under known keys stays, if the key that is changed is not one of them. -/
theorem lookup_changeKey_of_not_mem {known : List String} (h : key ∉ known) :
    ∀ k ∈ known, (changeKey key f entries).lookup k = entries.lookup k :=
  fun _ hk => lookup_changeKey_of_ne fun heq => h (heq ▸ hk)

theorem exists_lookup_of_mem (h : key ∈ entries.map Prod.fst) :
    ∃ v, entries.lookup key = some v := by
  obtain ⟨e, he, rfl⟩ := List.mem_map.mp h
  cases hlookup : entries.lookup e.1 with
  | some v => exact ⟨v, rfl⟩
  | none => exact absurd (List.lookup_eq_none_iff.mp hlookup e he) (by simp)

end Toml

namespace Config

open Toml

section Readers

variable {α : Type} {decode : Value → Option α} {f : Value → Value} {fields : Entries}
  {key k : String}

theorem optional?_congr {fields' : Entries} (h : fields.lookup k = fields'.lookup k) (other : α) :
    optional? decode fields k other = optional? decode fields' k other := by
  rw [optional?, optional?, h]

theorem required?_congr {fields' : Entries} (h : fields.lookup k = fields'.lookup k) :
    required? decode fields k = required? decode fields' k := by
  rw [required?, required?, h]

/-- A change that the reader of the key does not see. -/
theorem optional?_of_unseen (h : ∀ v, fields.lookup key = some v → decode (f v) = decode v)
    (other : α) :
    optional? decode (changeKey key f fields) key other = optional? decode fields key other := by
  rw [optional?, optional?, lookup_changeKey_self]
  cases hlookup : fields.lookup key with
  | none => rfl
  | some v => exact h v hlookup

/-- A change that the reader of the key refuses. -/
theorem optional?_of_refused {v : Value} (h : fields.lookup key = some v)
    (hf : decode (f v) = none) (other : α) :
    optional? decode (changeKey key f fields) key other = none := by
  rw [optional?, lookup_changeKey_self, h]
  exact hf

theorem mapM_modify_of_unseen {items : List Value} {i : Nat}
    (h : ∀ v, items[i]? = some v → decode (f v) = decode v) :
    (items.modify i f).mapM decode = items.mapM decode := by
  induction items generalizing i with
  | nil => cases i <;> rfl
  | cons v items ih =>
    cases i with
    | zero =>
      rw [List.modify_zero_cons, List.mapM_cons, List.mapM_cons, h v rfl]
    | succ i =>
      rw [List.modify_succ_cons, List.mapM_cons, List.mapM_cons, ih h]

theorem mapM_modify_of_refused {items : List Value} {i : Nat} {v : Value}
    (h : items[i]? = some v) (hf : decode (f v) = none) :
    (items.modify i f).mapM decode = none := by
  induction items generalizing i with
  | nil => simp at h
  | cons w items ih =>
    cases i with
    | zero =>
      obtain rfl : w = v := by simpa using h
      rw [List.modify_zero_cons, List.mapM_cons, hf]
      rfl
    | succ i =>
      rw [List.modify_succ_cons, List.mapM_cons, ih (by simpa using h)]
      cases decode w <;> rfl

theorem exists_of_mapM_eq_some {items : List Value} {i : Nat} {v : Value} {l : List α}
    (h : items.mapM decode = some l) (hi : items[i]? = some v) : ∃ a, decode v = some a := by
  cases hv : decode v with
  | some a => exact ⟨a, rfl⟩
  | none => simpa [h] using mapM_modify_of_refused (f := id) hi hv

end Readers

/-! Tables with known keys -/

section Tables

variable {fields fields' : Entries}

theorem term?_congr (h : ∀ k ∈ termKeys, fields.lookup k = fields'.lookup k) :
    term? (.table fields) = term? (.table fields') := by
  have hid : required? integer? fields "id" = required? integer? fields' "id" :=
    required?_congr (h "id" (by decide))
  have hpattern : required? text? fields "pattern" = required? text? fields' "pattern" :=
    required?_congr (h "pattern" (by decide))
  simp only [term?, fields?, entries?, bind, Option.bind_some, hid, hpattern]

theorem sides?_congr (h : ∀ k ∈ sideKeys, fields.lookup k = fields'.lookup k) :
    sides? (.table fields) = sides? (.table fields') := by
  have hside (k : String) (hk : k ∈ sideKeys) :
      optional? (list? transformer?) fields k [] = optional? (list? transformer?) fields' k [] :=
    optional?_congr (h k hk) []
  simp only [sides?, fields?, entries?, bind, Option.bind_some, hside "blacklist" (by decide),
    hside "whitelist" (by decide)]

/-- The kind of a transformer says which other keys are read. -/
theorem transformer?_congr {kind : String} (hkind : fields.lookup "kind" = some (.string kind))
    (h : ∀ k ∈ "kind" :: kindKeys kind, fields.lookup k = fields'.lookup k) :
    transformer? (.table fields) = transformer? (.table fields') := by
  have hkind' : fields'.lookup "kind" = some (.string kind) :=
    (h "kind" List.mem_cons_self).symm.trans hkind
  have hread (entries : Entries) (hentries : entries.lookup "kind" = some (.string kind)) :
      kindAndFields? (.table entries) = some (kind, entries) := by
    simp [kindAndFields?, entries?, required?, hentries, text?]
  rw [transformer?, transformer?, hread fields hkind, hread fields' hkind']
  dsimp only [bind, Option.bind_some]
  split
  · rfl
  · rfl
  · rfl
  · rfl
  · rw [required?_congr (h "map" (by decide))]
  · rw [optional?_congr (h "threshold" (by decide)), optional?_congr (h "custom" (by decide))]
  · rfl

/-- No key of a term admits a truth value. -/
theorem term?_of_truth {k : String} (hk : k ∈ termKeys) {b : Bool}
    (h : fields.lookup k = some (.boolean b)) : term? (.table fields) = none := by
  simp only [termKeys, List.mem_cons, List.not_mem_nil, or_false] at hk
  rcases hk with rfl | rfl
  · simp [term?, fields?, entries?, required?, h, integer?]
  · simp [term?, fields?, entries?, required?, h, text?]

theorem sides?_of_truth {k : String} (hk : k ∈ sideKeys) {b : Bool}
    (h : fields.lookup k = some (.boolean b)) : sides? (.table fields) = none := by
  simp only [sideKeys, List.mem_cons, List.not_mem_nil, or_false] at hk
  rcases hk with rfl | rfl
  · simp [sides?, fields?, entries?, optional?, h, list?]
  · simp [sides?, fields?, entries?, optional?, h, list?]

theorem kindKeys_cases {kind k : String} (h : k ∈ kindKeys kind) :
    kind = "remap" ∧ k = "map" ∨
      kind = "collapse-duplicates" ∧ (k = "threshold" ∨ k = "custom") := by
  unfold kindKeys at h
  split at h
  · exact .inl ⟨rfl, by simpa using h⟩
  · exact .inr ⟨rfl, by simpa using h⟩
  · exact absurd h List.not_mem_nil

theorem transformer?_of_truth {kind k : String}
    (hkind : k ≠ "kind" → fields.lookup "kind" = some (.string kind))
    (hk : k ∈ "kind" :: kindKeys kind) {b : Bool} (h : fields.lookup k = some (.boolean b)) :
    transformer? (.table fields) = none := by
  rcases List.mem_cons.mp hk with rfl | hk
  · simp [transformer?, kindAndFields?, entries?, required?, h, text?]
  · obtain ⟨rfl, rfl⟩ | ⟨rfl, rfl | rfl⟩ := kindKeys_cases hk
    · have hkind := hkind (by decide)
      simp [transformer?, kindAndFields?, entries?, required?, hkind, text?, h, map?]
    · have hkind := hkind (by decide)
      simp [transformer?, kindAndFields?, entries?, required?, optional?, hkind, text?, h, count?]
    · have hkind := hkind (by decide)
      simp [transformer?, kindAndFields?, entries?, required?, optional?, hkind, text?, h, map?]

/-- A change of the transformers of a side that their reader does not see. -/
theorem sides?_of_unseen {side : String} (hside : side ∈ sideKeys) {f : Value → Value}
    (h : ∀ v, fields.lookup side = some v → list? transformer? (f v) = list? transformer? v) :
    sides? (.table (changeKey side f fields)) = sides? (.table fields) := by
  have hself := optional?_of_unseen h []
  have hother (k : String) (hk : k ≠ side) :
      optional? (list? transformer?) (changeKey side f fields) k [] =
        optional? (list? transformer?) fields k [] :=
    optional?_congr (lookup_changeKey_of_ne hk) []
  simp only [sideKeys, List.mem_cons, List.not_mem_nil, or_false] at hside
  rcases hside with rfl | rfl
  · simp only [sides?, fields?, entries?, bind, Option.bind_some, hself,
      hother "whitelist" (by decide)]
  · simp only [sides?, fields?, entries?, bind, Option.bind_some, hself,
      hother "blacklist" (by decide)]

theorem sides?_of_refused {side : String} (hside : side ∈ sideKeys) {f : Value → Value} {v : Value}
    (h : fields.lookup side = some v) (hf : list? transformer? (f v) = none) :
    sides? (.table (changeKey side f fields)) = none := by
  have hself := optional?_of_refused h hf []
  simp only [sideKeys, List.mem_cons, List.not_mem_nil, or_false] at hside
  rcases hside with rfl | rfl
  · simp [sides?, fields?, entries?, hself]
  · simp [sides?, fields?, entries?, hself]

/-- A table is read as a transformer only if it names a kind. -/
theorem exists_kind {t : TransformerEntry} (h : transformer? (.table fields) = some t) :
    ∃ kind, fields.lookup "kind" = some (.string kind) := by
  obtain ⟨⟨kind, read⟩, hread, -⟩ := Option.bind_eq_some_iff.mp h
  obtain ⟨⟨v, hv, htext⟩, -⟩ :
      (∃ v, fields.lookup "kind" = some v ∧ text? v = some kind) ∧ fields = read := by
    simpa [kindAndFields?, entries?, required?, Option.bind_eq_some_iff] using hread
  cases v with
  | string text => exact ⟨text, hv⟩
  | _ => exact nomatch htext

theorem exists_transformers {side : String} (hside : side ∈ sideKeys) {v : Value}
    {both : List TransformerEntry × List TransformerEntry} (h : sides? (.table fields) = some both)
    (hv : fields.lookup side = some v) : ∃ l, list? transformer? v = some l := by
  simp only [sides?, fields?, entries?, bind, pure, Option.bind_some,
    Option.bind_eq_some_iff] at h
  obtain ⟨black, hblack, white, hwhite, -⟩ := h
  simp only [sideKeys, List.mem_cons, List.not_mem_nil, or_false] at hside
  rcases hside with rfl | rfl
  · exact ⟨black, by simpa [optional?, hv] using hblack⟩
  · exact ⟨white, by simpa [optional?, hv] using hwhite⟩

end Tables

/-! Documents -/

/-- What the readers of the keys of a document say makes up the configuration. -/
structure ReadFrom (c : Config) (document : Entries) : Prop where
  version_eq : c.version = supportedVersion
  version : document.lookup "version" = some (.integer supportedVersion)
  terms : optional? (list? term?) document "term" [] = some c.terms
  whitelist : optional? (list? text?) document "whitelist" [] = some c.whitelist
  sides : optional? sides? document "transformers" ([], []) =
    some (c.blacklistTransformers, c.whitelistTransformers)
  limit : optional? (fun v => (count? v).map some) document "forked_traversal_limit" none =
    some c.limit

theorem documentVersion_eq_ok_iff {document : Entries} {n : Int} :
    documentVersion document = .ok n ↔
      n = supportedVersion ∧ document.lookup "version" = some (.integer supportedVersion) := by
  unfold documentVersion
  split
  · next h => simp [h]
  · next m h =>
    rw [h]
    split_ifs with hm
    · subst hm
      simp [eq_comm]
    · simp [hm]
  · next v hne h =>
    constructor
    · exact nofun
    · rintro ⟨-, hinteger⟩
      exact absurd (Option.some.inj (h.symm.trans hinteger)) (hne _)

/-- A document is accepted if all readers are content. -/
theorem ofDocument_eq_ok_iff {document : Entries} {c : Config} :
    ofDocument document = .ok c ↔ c.ReadFrom document := by
  have hversion : ofDocument document = .ok c ↔
      documentVersion document = .ok supportedVersion ∧ ofDocument? document = some c := by
    rw [ofDocument]
    cases h : documentVersion document with
    | error e => exact ⟨nofun, fun h => nomatch h.1⟩
    | ok n =>
      obtain ⟨rfl, -⟩ := documentVersion_eq_ok_iff.mp h
      cases ofDocument? document with
      | none => exact ⟨nofun, fun h => nomatch h.2⟩
      | some c' =>
        exact ⟨fun h => ⟨rfl, congrArg some (Except.ok.inj h)⟩,
          fun h => congrArg Except.ok (Option.some.inj h.2)⟩
  rw [hversion, documentVersion_eq_ok_iff]
  constructor
  · rintro ⟨⟨-, hlookup⟩, h⟩
    have hread : required? integer? document "version" = some supportedVersion := by
      rw [required?, hlookup]
      rfl
    simp only [ofDocument?, bind, pure, Option.bind_eq_some_iff, Prod.exists, hread] at h
    obtain ⟨black, white, hsides, n, hn, terms, hterms, phrases, hphrases, limit, hlimit, hc⟩ := h
    cases hn
    cases hc
    exact ⟨rfl, hlookup, hterms, hphrases, hsides, hlimit⟩
  · intro h
    have hread : required? integer? document "version" = some c.version := by
      rw [required?, h.version, h.version_eq]
      rfl
    refine ⟨⟨rfl, h.version⟩, ?_⟩
    simp only [ofDocument?, bind, pure, Option.bind_some, h.terms, h.whitelist, h.sides, h.limit,
      hread]

namespace ReadFrom

variable {c : Config} {document : Entries} {f : Value → Value} {v : Value}

theorem congr (h : c.ReadFrom document) {document' : Entries}
    (hsame : ∀ k ∈ configKeys, document'.lookup k = document.lookup k) : c.ReadFrom document' where
  version_eq := h.version_eq
  version := (hsame "version" (by decide)).trans h.version
  terms := (optional?_congr (hsame "term" (by decide)) []).trans h.terms
  whitelist := (optional?_congr (hsame "whitelist" (by decide)) []).trans h.whitelist
  sides := (optional?_congr (hsame "transformers" (by decide)) ([], [])).trans h.sides
  limit := (optional?_congr (hsame "forked_traversal_limit" (by decide)) none).trans h.limit

/-- No key of a document admits a truth value. -/
theorem lookup_ne_truth (h : c.ReadFrom document) {k : String} (hk : k ∈ configKeys) (b : Bool) :
    document.lookup k ≠ some (.boolean b) := by
  intro hlookup
  obtain ⟨-, hversion, hterms, hwhitelist, hsides, hlimit⟩ := h
  simp only [configKeys, List.mem_cons, List.not_mem_nil, or_false] at hk
  rcases hk with rfl | rfl | rfl | rfl | rfl
  · simp [hlookup] at hversion
  · simp [optional?, hlookup, list?] at hterms
  · simp [optional?, hlookup, list?] at hwhitelist
  · simp [optional?, hlookup, sides?, fields?, entries?] at hsides
  · simp [optional?, hlookup, count?] at hlimit

theorem changeTerms (h : c.ReadFrom document)
    (hf : ∀ v, document.lookup "term" = some v → list? term? (f v) = list? term? v) :
    c.ReadFrom (changeKey "term" f document) where
  version_eq := h.version_eq
  version := (lookup_changeKey_of_ne (by decide)).trans h.version
  terms := (optional?_of_unseen hf []).trans h.terms
  whitelist := (optional?_congr (lookup_changeKey_of_ne (by decide)) []).trans h.whitelist
  sides := (optional?_congr (lookup_changeKey_of_ne (by decide)) ([], [])).trans h.sides
  limit := (optional?_congr (lookup_changeKey_of_ne (by decide)) none).trans h.limit

theorem changeTransformers (h : c.ReadFrom document)
    (hf : ∀ v, document.lookup "transformers" = some v → sides? (f v) = sides? v) :
    c.ReadFrom (changeKey "transformers" f document) where
  version_eq := h.version_eq
  version := (lookup_changeKey_of_ne (by decide)).trans h.version
  terms := (optional?_congr (lookup_changeKey_of_ne (by decide)) []).trans h.terms
  whitelist := (optional?_congr (lookup_changeKey_of_ne (by decide)) []).trans h.whitelist
  sides := (optional?_of_unseen hf ([], [])).trans h.sides
  limit := (optional?_congr (lookup_changeKey_of_ne (by decide)) none).trans h.limit

theorem terms_ne_none (h : c.ReadFrom (changeKey "term" f document))
    (hv : document.lookup "term" = some v) : list? term? (f v) ≠ none := by
  intro hf
  simpa [optional?_of_refused hv hf] using h.terms

theorem sides_ne_none (h : c.ReadFrom (changeKey "transformers" f document))
    (hv : document.lookup "transformers" = some v) : sides? (f v) ≠ none := by
  intro hf
  simpa [optional?_of_refused hv hf] using h.sides

end ReadFrom

end Config

end TermScan
