import TermScan.Pattern.RegexSource
import TermScan.Proofs.Pattern.RoundTrip

/-!
# Regular expressions are unambiguous

The regular expression of a pattern is a row of tokens with nothing between them. No token is the
beginning of another one, as a character with a meaning of its own never stands for itself, so the
row is known from the text. The nodes are known from the row: a literal run ends where no character
follows, and a group where it is closed.
-/
namespace TermScan

/-- What the regular expression of a pattern is made of. -/
inductive RegexToken
  | char (c : Char)
  | any
  | openGroup
  | closeOptional
  | dotMatchesAll
  | notAfterWord
  | notBeforeWord
  deriving DecidableEq, Repr

namespace RegexToken

/-- How a token is written. -/
def source : RegexToken → List Char
  | char c => escapeRegex [c]
  | any => ['.']
  | openGroup => "(?:".toList
  | closeOptional => ")?".toList
  | dotMatchesAll => "(?s)".toList
  | notAfterWord => "(?<![A-Za-z0-9])".toList
  | notBeforeWord => "(?![A-Za-z0-9])".toList

def isChar : RegexToken → Bool
  | char _ => true
  | _ => false

variable {c d : Char} {s t : RegexToken}

theorem source_of_special (h : isRegexSpecial c) : (char c).source = ['\\', c] := by
  show escapeRegex [c] = _
  rw [escapeRegex, List.flatMap_singleton, if_pos h]

theorem source_of_plain (h : isRegexSpecial c = false) : (char c).source = [c] := by
  show escapeRegex [c] = _
  rw [escapeRegex, List.flatMap_singleton, if_neg (by simp [h])]

/-- The first character tells whether a token stands for a character. -/
theorem exists_source_eq (t : RegexToken) : ∃ c tail, t.source = c :: tail ∧
    (t.isChar = false ↔ isRegexSpecial c ∧ c ≠ '\\') := by
  cases t with
  | char c =>
    cases hspecial : isRegexSpecial c with
    | true => exact ⟨'\\', [c], source_of_special hspecial, by simp [isChar]⟩
    | false => exact ⟨c, [], source_of_plain hspecial, by simp [isChar, hspecial]⟩
  | any => exact ⟨'.', [], rfl, by decide⟩
  | openGroup => exact ⟨'(', "?:".toList, by decide, by decide⟩
  | closeOptional => exact ⟨')', "?".toList, by decide, by decide⟩
  | dotMatchesAll => exact ⟨'(', "?s)".toList, by decide, by decide⟩
  | notAfterWord => exact ⟨'(', "?<![A-Za-z0-9])".toList, by decide, by decide⟩
  | notBeforeWord => exact ⟨'(', "?![A-Za-z0-9])".toList, by decide, by decide⟩

theorem char_eq_of_begins (h : (char c).source <+: (char d).source) : c = d := by
  cases hc : isRegexSpecial c with
  | true =>
    cases hd : isRegexSpecial d with
    | true => simpa [source_of_special hc, source_of_special hd] using h
    | false => simp [source_of_special hc, source_of_plain hd] at h
  | false =>
    cases hd : isRegexSpecial d with
    | true =>
      have hbackslash : c = '\\' := by
        simpa [source_of_plain hc, source_of_special hd] using h
      rw [hbackslash] at hc
      exact absurd hc (by decide)
    | false => simpa [source_of_plain hc, source_of_plain hd] using h

/-- No token is the beginning of another one. -/
theorem eq_of_begins (h : s.source <+: t.source) : s = t := by
  have hkind : s.isChar = t.isChar := by
    obtain ⟨c, tail, hs, hsfixed⟩ := s.exists_source_eq
    obtain ⟨d, tail', ht, htfixed⟩ := t.exists_source_eq
    rw [hs, ht, List.cons_prefix_cons] at h
    obtain ⟨rfl, -⟩ := h
    exact Bool.eq_iff_iff.mpr (by simpa using not_congr (hsfixed.trans htfixed.symm))
  cases s with
  | char c =>
    cases t with
    | char d => rw [char_eq_of_begins h]
    | _ => cases hkind
  | _ =>
    cases t with
    | char d => cases hkind
    | _ => revert h; decide

theorem eq_of_source_append {rest rest' : List Char}
    (h : s.source ++ rest = t.source ++ rest') : s = t ∧ rest = rest' := by
  have heq : s = t := by
    have hs : s.source <+: t.source ++ rest' := ⟨rest, h⟩
    rcases List.prefix_or_prefix_of_prefix hs (List.prefix_append _ rest') with hbegins | hbegins
    · exact eq_of_begins hbegins
    · exact (eq_of_begins hbegins).symm
  subst heq
  exact ⟨rfl, List.append_cancel_left h⟩

theorem source_ne_nil (t : RegexToken) : t.source ≠ [] := by
  obtain ⟨c, tail, htail, -⟩ := t.exists_source_eq
  simp [htail]

/-- A text is written in at most one row of tokens. -/
theorem flatMap_source_injective {tokens tokens' : List RegexToken}
    (h : tokens.flatMap source = tokens'.flatMap source) : tokens = tokens' := by
  induction tokens generalizing tokens' with
  | nil =>
    cases tokens' with
    | nil => rfl
    | cons t tokens' =>
      rw [List.flatMap_nil, List.flatMap_cons] at h
      exact absurd (List.append_eq_nil_iff.mp h.symm).1 t.source_ne_nil
  | cons s tokens ih =>
    cases tokens' with
    | nil =>
      rw [List.flatMap_nil, List.flatMap_cons] at h
      exact absurd (List.append_eq_nil_iff.mp h).1 s.source_ne_nil
    | cons t tokens' =>
      obtain ⟨heq, hrest⟩ := eq_of_source_append h
      rw [heq, ih hrest]

end RegexToken

/-! Tokens of patterns -/

def Atom.tokens : Atom → List RegexToken
  | literal chars => chars.map .char
  | wildcard => [.any]

def Node.tokens : Node → List RegexToken
  | one atom => atom.tokens
  | optional atom => .openGroup :: (atom.tokens ++ [.closeOptional])

namespace RegexToken

/-- What stands in front of the nodes of a pattern with this flag. -/
def opening (startBoundary : Bool) : List RegexToken :=
  if startBoundary then [notAfterWord] else []

/-- What stands behind the nodes of a pattern with this flag. -/
def closing (endBoundary : Bool) : List RegexToken :=
  if endBoundary then [notBeforeWord] else []

/-- The row of tokens for some nodes and the flag behind them. -/
def row (nodes : List Node) (endBoundary : Bool) : List RegexToken :=
  nodes.flatMap Node.tokens ++ closing endBoundary

end RegexToken

/-- The row of tokens that a pattern is written in. -/
def Pattern.tokens (p : Pattern) : List RegexToken :=
  .dotMatchesAll :: (RegexToken.opening p.startBoundary ++ RegexToken.row p.nodes p.endBoundary)

theorem Atom.flatMap_tokens (a : Atom) : a.tokens.flatMap RegexToken.source = a.regexSource := by
  cases a with
  | literal chars =>
    show (chars.map RegexToken.char).flatMap RegexToken.source = escapeRegex chars
    unfold escapeRegex
    rw [List.flatMap_map]
    refine List.flatMap_congr fun c _ => ?_
    show escapeRegex [c] = _
    unfold escapeRegex
    exact List.flatMap_singleton _ c
  | wildcard => rfl

theorem Node.flatMap_tokens (n : Node) : n.tokens.flatMap RegexToken.source = n.regexSource := by
  cases n with
  | one a => exact a.flatMap_tokens
  | optional a =>
    show "(?:".toList ++ (a.tokens ++ [RegexToken.closeOptional]).flatMap RegexToken.source =
      "(?:".toList ++ a.regexSource ++ ")?".toList
    rw [List.flatMap_append, a.flatMap_tokens, List.append_assoc]
    rfl

theorem Pattern.flatMap_tokens (p : Pattern) :
    p.tokens.flatMap RegexToken.source = p.regexSource.toList := by
  have hopening : (RegexToken.opening p.startBoundary).flatMap RegexToken.source =
      if p.startBoundary then "(?<![A-Za-z0-9])".toList else [] := by
    unfold RegexToken.opening
    split <;> rfl
  have hclosing : (RegexToken.closing p.endBoundary).flatMap RegexToken.source =
      if p.endBoundary then "(?![A-Za-z0-9])".toList else [] := by
    unfold RegexToken.closing
    split <;> rfl
  have hnodes : (p.nodes.flatMap Node.tokens).flatMap RegexToken.source =
      p.nodes.flatMap Node.regexSource := by
    rw [List.flatMap_assoc]
    exact List.flatMap_congr fun n _ => n.flatMap_tokens
  unfold tokens RegexToken.row regexSource
  rw [String.toList_ofList, List.flatMap_cons, List.flatMap_append, List.flatMap_append,
    hopening, hnodes, hclosing]
  simp only [List.append_assoc]
  rfl

/-! Patterns from tokens -/

namespace RegexToken

/-- A node can begin with the token. -/
def opensNode : RegexToken → Bool
  | char _ | any | openGroup => true
  | _ => false

/-- No character stands at the front. -/
def Breaks (tokens : List RegexToken) : Prop := ∀ t ∈ tokens.head?, t.isChar = false

theorem breaks_cons {t : RegexToken} {tokens : List RegexToken} :
    Breaks (t :: tokens) ↔ t.isChar = false := by
  simp [Breaks]

/-- A run of characters is known where no character follows. -/
theorem eq_of_chars_append {chars chars' : List Char} {rest rest' : List RegexToken}
    (h : chars.map char ++ rest = chars'.map char ++ rest') (hrest : Breaks rest)
    (hrest' : Breaks rest') : chars = chars' ∧ rest = rest' := by
  induction chars generalizing chars' with
  | nil =>
    cases chars' with
    | nil => exact ⟨rfl, h⟩
    | cons c chars' =>
      have hhead : rest = char c :: (chars'.map char ++ rest') := h
      rw [hhead, breaks_cons] at hrest
      cases hrest
  | cons c chars ih =>
    cases chars' with
    | nil =>
      have hhead : char c :: (chars.map char ++ rest) = rest' := h
      rw [← hhead, breaks_cons] at hrest'
      cases hrest'
    | cons d chars' =>
      obtain ⟨hchar, htail⟩ := List.cons.inj h
      obtain ⟨hchars, hrests⟩ := ih htail
      exact ⟨by rw [char.inj hchar, hchars], hrests⟩

end RegexToken

open RegexToken

variable {rest rest' : List RegexToken}

/-- An atom is known where no character follows a literal run. -/
theorem Atom.eq_of_tokens_append {a b : Atom} (ha : (Node.one a).filled) (hb : (Node.one b).filled)
    (h : a.tokens ++ rest = b.tokens ++ rest') (hrest : a ≠ .wildcard → Breaks rest)
    (hrest' : b ≠ .wildcard → Breaks rest') : a = b ∧ rest = rest' := by
  cases a with
  | literal chars =>
    cases b with
    | literal chars' =>
      obtain ⟨hchars, hrests⟩ := eq_of_chars_append h (hrest nofun) (hrest' nofun)
      exact ⟨by rw [hchars], hrests⟩
    | wildcard =>
      cases chars with
      | nil => cases ha
      | cons c chars => cases h
  | wildcard =>
    cases b with
    | literal chars =>
      cases chars with
      | nil => cases hb
      | cons c chars => cases h
    | wildcard => exact ⟨rfl, (List.cons.inj h).2⟩

/-- No atom is written with a group in front. -/
theorem Atom.tokens_append_ne {a : Atom} (filled : (Node.one a).filled) :
    a.tokens ++ rest ≠ .openGroup :: rest' := by
  intro h
  cases a with
  | literal chars =>
    cases chars with
    | nil => cases filled
    | cons c chars => cases h
  | wildcard => cases h

namespace Node

/-- What is written for a node begins with a character just where the node is a literal run. -/
theorem exists_tokens_eq {n : Node} (filled : n.filled) : ∃ t tail, n.tokens = t :: tail ∧
    t.opensNode ∧ t.isChar = n.isLiteral := by
  cases n with
  | one a =>
    cases a with
    | literal chars =>
      cases chars with
      | nil => cases filled
      | cons c chars => exact ⟨.char c, chars.map .char, rfl, rfl, rfl⟩
    | wildcard => exact ⟨.any, [], rfl, rfl, rfl⟩
  | optional a => exact ⟨.openGroup, a.tokens ++ [.closeOptional], rfl, rfl, rfl⟩

/-- A node is known where no character follows a literal run. -/
theorem eq_of_tokens_append {n m : Node} (hn : n.filled) (hm : m.filled)
    (h : n.tokens ++ rest = m.tokens ++ rest') (hrest : n.isLiteral → Breaks rest)
    (hrest' : m.isLiteral → Breaks rest') : n = m ∧ rest = rest' := by
  have literal {a : Atom} (ha : a ≠ .wildcard) : (one a).isLiteral := by
    cases a with
    | literal chars => rfl
    | wildcard => exact absurd rfl ha
  have inner {a : Atom} (ha : (optional a).filled) : (one a).filled := by
    cases a <;> exact ha
  cases n with
  | one a =>
    cases m with
    | one b =>
      obtain ⟨hatom, hrests⟩ := Atom.eq_of_tokens_append hn hm h (fun ha => hrest (literal ha))
        fun hb => hrest' (literal hb)
      exact ⟨by rw [hatom], hrests⟩
    | optional b => exact absurd h (Atom.tokens_append_ne hn)
  | optional a =>
    cases m with
    | one b => exact absurd h.symm (Atom.tokens_append_ne hm)
    | optional b =>
      have hgroup : a.tokens ++ .closeOptional :: rest = b.tokens ++ .closeOptional :: rest' := by
        simpa [tokens] using h
      have hclosed (tail : List RegexToken) : Breaks (.closeOptional :: tail) := breaks_cons.mpr rfl
      obtain ⟨hatom, hrests⟩ := Atom.eq_of_tokens_append (inner hn) (inner hm) hgroup
        (fun _ => hclosed rest) fun _ => hclosed rest'
      exact ⟨by rw [hatom], (List.cons.inj hrests).2⟩

end Node

namespace RegexToken

variable {nodes nodes' : List Node} {flag flag' : Bool}

/-- A row begins as its first node does, or with the boundary behind the nodes. -/
theorem mem_head?_row (filled : ∀ n ∈ nodes, n.filled) {t : RegexToken}
    (h : t ∈ (row nodes flag).head?) :
    t = notBeforeWord ∨ t.opensNode ∧ ∃ n ∈ nodes.head?, t.isChar = n.isLiteral := by
  cases nodes with
  | nil =>
    cases flag with
    | false => cases h
    | true => exact .inl (Option.some.inj h).symm
  | cons n nodes =>
    obtain ⟨u, tail, htokens, hopens, hchar⟩ := Node.exists_tokens_eq (filled n List.mem_cons_self)
    unfold row at h
    rw [List.flatMap_cons, htokens] at h
    obtain rfl : u = t := Option.some.inj h
    exact .inr ⟨hopens, n, rfl, hchar⟩

/-- A character in front of a literal run belongs to it, so none follows one. -/
theorem breaks_row {n : Node} (h : Canonical (n :: nodes)) (hliteral : n.isLiteral) (flag : Bool) :
    Breaks (row nodes flag) := by
  obtain ⟨-, hapart, canonical⟩ := canonical_cons.mp h
  intro t ht
  rcases mem_head?_row canonical.filled ht with heq | ⟨-, m, hm, hchar⟩
  · rw [heq]
    rfl
  · simpa [hchar, hliteral] using hapart m hm

theorem row_ne_closing {n : Node} (filled : n.filled) :
    row (n :: nodes) flag ≠ row [] flag' := by
  obtain ⟨t, tail, htokens, hopens, -⟩ := Node.exists_tokens_eq filled
  intro h
  unfold row at h
  rw [List.flatMap_cons, htokens] at h
  cases flag' with
  | false => cases h
  | true =>
    rw [(List.cons.inj h).1] at hopens
    cases hopens

/-- A row tells the nodes and the flag behind them. -/
theorem eq_of_row_eq (hnodes : Canonical nodes) (hnodes' : Canonical nodes')
    (h : row nodes flag = row nodes' flag') : nodes = nodes' ∧ flag = flag' := by
  induction nodes generalizing nodes' with
  | nil =>
    cases nodes' with
    | nil => exact ⟨rfl, by cases flag <;> cases flag' <;> trivial⟩
    | cons m nodes' => exact absurd h.symm (row_ne_closing (canonical_cons.mp hnodes').1)
  | cons n nodes ih =>
    cases nodes' with
    | nil => exact absurd h (row_ne_closing (canonical_cons.mp hnodes).1)
    | cons m nodes' =>
      obtain ⟨hn, -, canonical⟩ := canonical_cons.mp hnodes
      obtain ⟨hm, -, canonical'⟩ := canonical_cons.mp hnodes'
      have hrow : n.tokens ++ row nodes flag = m.tokens ++ row nodes' flag' := by
        simpa only [row, List.flatMap_cons, List.append_assoc] using h
      -- a literal run in front ends with its node, as the next one is no literal
      obtain ⟨hnode, hrest⟩ := Node.eq_of_tokens_append hn hm hrow
        (fun hliteral => breaks_row hnodes hliteral flag)
        fun hliteral => breaks_row hnodes' hliteral flag'
      obtain ⟨htail, hflag⟩ := ih canonical canonical' hrest
      exact ⟨by rw [hnode, htail], hflag⟩

/-- The boundary in front of a row is none of its tokens. -/
theorem eq_of_opening_append (hnodes : Canonical nodes) (hnodes' : Canonical nodes')
    {start start' : Bool}
    (h : opening start ++ row nodes flag = opening start' ++ row nodes' flag') :
    start = start' ∧ row nodes flag = row nodes' flag' := by
  have hfirst {nodes : List Node} (hnodes : Canonical nodes) (flag : Bool)
      (tail : List RegexToken) : row nodes flag ≠ notAfterWord :: tail := by
    intro h
    rcases mem_head?_row hnodes.filled (h ▸ rfl : notAfterWord ∈ (row nodes flag).head?) with
      heq | ⟨hopens, -⟩
    · cases heq
    · cases hopens
  cases start <;> cases start'
  case false.false => exact ⟨rfl, h⟩
  case false.true => exact absurd h (hfirst hnodes flag _)
  case true.false => exact absurd h.symm (hfirst hnodes' flag' _)
  case true.true => exact ⟨rfl, (List.cons.inj h).2⟩

end RegexToken

namespace Pattern

/-- A canonical pattern is known from its tokens. -/
theorem eq_of_tokens_eq {p q : Pattern} (hp : Canonical p.nodes) (hq : Canonical q.nodes)
    (h : p.tokens = q.tokens) : p = q := by
  obtain ⟨hstart, hrow⟩ := eq_of_opening_append hp hq (List.cons.inj h).2
  obtain ⟨hnodes, hend⟩ := eq_of_row_eq hp hq hrow
  cases p
  cases q
  congr

/-- The regular expression of a pattern can be read as one row of tokens only, the one in which
each character of a literal run stands for itself and each of the other tokens was written for a
wildcard, an optional or a boundary. So canonical patterns with the same regular expression are the
same, whatever their literal runs spell. -/
theorem regexSource_unambiguous :
    (∀ (p : Pattern) (tokens : List RegexToken),
      tokens.flatMap RegexToken.source = p.regexSource.toList ↔ tokens = p.tokens) ∧
    ∀ p q : Pattern, Canonical p.nodes → Canonical q.nodes → p.regexSource = q.regexSource →
      p = q := by
  have single (p : Pattern) (tokens : List RegexToken) :
      tokens.flatMap RegexToken.source = p.regexSource.toList ↔ tokens = p.tokens := by
    rw [← p.flatMap_tokens]
    exact ⟨RegexToken.flatMap_source_injective, fun h => by rw [h]⟩
  refine ⟨single, fun p q hp hq h => eq_of_tokens_eq hp hq ?_⟩
  rw [← single q, p.flatMap_tokens, h]

theorem regexSource_unambiguous_sample :
    let p : Pattern := ⟨false, true, [.one (.literal "(?:.)?".toList), .optional .wildcard]⟩
    p.regexSource = "(?s)\\(\\?:\\.\\)\\?(?:.)?(?![A-Za-z0-9])" ∧ Canonical p.nodes ∧
      ∃ q, parse "(\\?:.)\\?[?]|" = .ok q ∧ Canonical q.nodes ∧ p.regexSource = q.regexSource ∧
        p = q := by
  intro p
  have canonical : Canonical p.nodes :=
    canonical_cons.mpr ⟨rfl, by decide, canonical_cons.mpr ⟨rfl, by decide, canonical_nil⟩⟩
  refine ⟨by decide, canonical, p, by decide, canonical, rfl, ?_⟩
  exact regexSource_unambiguous.2 p p canonical canonical rfl

end Pattern

end TermScan
