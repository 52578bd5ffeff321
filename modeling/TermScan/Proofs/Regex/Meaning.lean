import TermScan.Proofs.Pattern.Tokens
import TermScan.Proofs.Regex.Search

/-!
# What an expression says

The tokens of a regular expression are read from the left. A character stands for itself, and a dot
for any character, for a line break only if `(?s)` stands before it. What is in a group that may be
left out is tried first, and left out if the expression cannot match with it. A look at the
neighbouring character consumes nothing. So an expression matches what its pattern prefers, and an
engine that does what the tokens say finds leftmost matches of the pattern.
-/
namespace TermScan

namespace RegexToken

/-- What stands behind the group that is open, where `inner` more groups are open within it. -/
def behindGroup : (inner : Nat) → List RegexToken → List RegexToken
  | _, [] => []
  | inner, .openGroup :: row => behindGroup (inner + 1) row
  | 0, .closeOptional :: row => row
  | inner + 1, .closeOptional :: row => behindGroup inner row
  | inner, _ :: row => behindGroup inner row

theorem length_behindGroup_le (inner : Nat) (row : List RegexToken) :
    (behindGroup inner row).length ≤ row.length := by
  fun_induction behindGroup inner row <;> simp_all <;> omega

/-- How many characters a row of tokens matches at the start of a text that follows the character
`before`. The first way to match counts. A dot matches a line break if `dotAll` says so. -/
def matchRow (dotAll : Bool) (row : List RegexToken) (before : Option Char) (text : List Char) :
    Option Nat :=
  match row, text with
  | [], _ => some 0
  | .char c :: row, d :: text =>
    if c = d then (matchRow dotAll row (some d) text).map (1 + ·) else none
  | .char _ :: _, [] => none
  | .any :: row, d :: text =>
    if dotAll || d != '\n' then (matchRow dotAll row (some d) text).map (1 + ·) else none
  | .any :: _, [] => none
  | .openGroup :: row, text =>
    (matchRow dotAll row before text).or (matchRow dotAll (behindGroup 0 row) before text)
  | .closeOptional :: row, text => matchRow dotAll row before text
  | .dotMatchesAll :: row, text => matchRow true row before text
  | .notAfterWord :: row, text =>
    if before.any isWordChar then none else matchRow dotAll row before text
  | .notBeforeWord :: row, text =>
    if text.head?.any isWordChar then none else matchRow dotAll row before text
termination_by row.length
decreasing_by
  all_goals have := length_behindGroup_le 0 ‹List RegexToken›
  all_goals simp only [List.length_cons]
  all_goals omega

theorem behindGroup_atom (a : Atom) (row : List RegexToken) :
    behindGroup 0 (a.tokens ++ .closeOptional :: row) = row := by
  cases a with
  | wildcard => rfl
  | literal chars =>
    induction chars with
    | nil => rfl
    | cons c chars ih => exact ih

/-- The tokens of an atom match what the atom does. -/
theorem matchRow_atom (a : Atom) {row : List RegexToken} {later : List Char → Option Nat}
    (hlater : ∀ before text, matchRow true row before text = later text) (before : Option Char)
    (text : List Char) :
    matchRow true (a.tokens ++ row) before text =
      ((a.strip? text).bind later).map (a.width + ·) := by
  cases a with
  | wildcard =>
    show matchRow true (.any :: row) before text = _
    cases text with
    | nil => rw [matchRow, Atom.strip?]; rfl
    | cons d text => rw [matchRow, Bool.true_or, if_pos rfl, hlater, Atom.strip?]; rfl
  | literal chars =>
    induction chars generalizing before text with
    | nil =>
      rw [Atom.strip?]
      show matchRow true row before text = (later text).map (0 + ·)
      simp [hlater]
    | cons c chars ih =>
      show matchRow true (.char c :: ((Atom.literal chars).tokens ++ row)) before text = _
      cases text with
      | nil => rw [matchRow, Atom.strip?]; rfl
      | cons d text =>
        rw [matchRow, Atom.strip?]
        split_ifs with h
        · rw [ih, Option.map_map]
          refine congrArg (Option.map · _) (funext fun n => ?_)
          simp only [Function.comp_apply, Atom.width, List.length_cons]
          omega
        · rfl

/-- The tokens of nodes match what the nodes prefer. -/
theorem matchRow_row (nodes : List Node) (endBoundary : Bool) (before : Option Char)
    (text : List Char) :
    matchRow true (row nodes endBoundary) before text =
      preferredLength? (fun rest => !(endBoundary && rest.head?.any isWordChar)) nodes text := by
  induction nodes generalizing before text with
  | nil =>
    cases endBoundary with
    | false =>
      show matchRow true [] before text = _
      rw [matchRow, preferredLength?]
      rfl
    | true =>
      show matchRow true [.notBeforeWord] before text = _
      rw [matchRow, matchRow, preferredLength?]
      cases text.head?.any isWordChar <;> rfl
  | cons n nodes ih =>
    cases n with
    | one a =>
      have htokens : row (.one a :: nodes) endBoundary = a.tokens ++ row nodes endBoundary := by
        simp [row, Node.tokens]
      rw [htokens, matchRow_atom a ih, preferredLength?]
    | optional a =>
      have htokens : row (.optional a :: nodes) endBoundary =
          .openGroup :: (a.tokens ++ .closeOptional :: row nodes endBoundary) := by
        simp [row, Node.tokens]
      have hclosed (before : Option Char) (text : List Char) :
          matchRow true (.closeOptional :: row nodes endBoundary) before text =
            preferredLength? (fun rest => !(endBoundary && rest.head?.any isWordChar)) nodes
              text := by
        rw [matchRow]
        exact ih before text
      rw [htokens, matchRow, matchRow_atom a hclosed, behindGroup_atom, ih, preferredLength?]
      split
      · next n hpresent => rw [hpresent]; rfl
      · next habsent => rw [habsent]; rfl

/-- The expression of a pattern matches what the pattern prefers. -/
theorem matchRow_tokens (p : Pattern) : matchRow false p.tokens = p.matchLength? := by
  funext before text
  rw [Pattern.tokens, matchRow, Pattern.matchLength?, matchNodes?_eq_preferredLength?]
  cases p.startBoundary with
  | false => exact matchRow_row p.nodes p.endBoundary before text
  | true =>
    show matchRow true (.notAfterWord :: row p.nodes p.endBoundary) before text = _
    rw [matchRow, Bool.true_and]
    split_ifs
    · rfl
    · exact matchRow_row p.nodes p.endBoundary before text

end RegexToken

/-- A search finds the leftmost match of a row of tokens from each character of a text on. -/
def Search.Follows (search : Search) (row : List RegexToken) : Prop :=
  ∀ read rest, search.find (read ++ rest) (byteLength read) =
    leftmost? (RegexToken.matchRow false row) read rest

/-- What an engine compiles from the expression of a pattern does what the tokens of the expression
say, in whatever way these are read off its text. -/
def Engines.Follow (engines : Engines) (p : Pattern) : Prop :=
  ∀ row : List RegexToken, row.flatMap RegexToken.source = p.regexSource.toList →
    (engines.compile p).Follows row

/-- The text of an expression can be read in one way only, which says what the pattern does. -/
theorem Engines.follow_iff {engines : Engines} {p : Pattern} :
    engines.Follow p ↔ (engines.compile p).FindsLeftmost p := by
  have hmeaning : (engines.compile p).Follows p.tokens ↔ (engines.compile p).FindsLeftmost p := by
    rw [Search.Follows, Search.FindsLeftmost, RegexToken.matchRow_tokens]
  rw [← hmeaning]
  constructor
  · exact fun h => h p.tokens p.flatMap_tokens
  · intro h row hrow
    rw [← p.flatMap_tokens] at hrow
    rwa [RegexToken.flatMap_source_injective hrow]

/-- Engines that know the expressions of some terms. -/
def Engines.ofTerms (terms : List Term) : Engines :=
  let search (source : String) : Search :=
    (((terms.map Term.pattern).find? (·.regexSource = source)).getD ⟨false, false, []⟩).search
  ⟨search, search⟩

/-- Such engines do what the expressions say as long as these tell the terms apart. -/
theorem Engines.follow_ofTerms {terms : List Term}
    (injective : ∀ t ∈ terms, ∀ t' ∈ terms,
      t'.pattern.regexSource = t.pattern.regexSource → t'.pattern = t.pattern) :
    ∀ t ∈ terms, (Engines.ofTerms terms).Follow t.pattern := by
  intro t ht
  have hfind : ((terms.map Term.pattern).find? (·.regexSource = t.pattern.regexSource)).getD
      ⟨false, false, []⟩ = t.pattern := by
    cases h : (terms.map Term.pattern).find? (·.regexSource = t.pattern.regexSource) with
    | none =>
      have hnot := List.find?_eq_none.mp h t.pattern (List.mem_map_of_mem ht)
      simp at hnot
    | some p =>
      obtain ⟨t', ht', rfl⟩ := List.mem_map.mp (List.mem_of_find?_eq_some h)
      exact injective t ht t' ht' (by simpa using List.find?_some h)
  have hcompile : (Engines.ofTerms terms).compile t.pattern = t.pattern.search := by
    unfold Engines.compile Engines.ofTerms
    split_ifs <;> exact congrArg Pattern.search hfind
  rw [Engines.follow_iff, hcompile]
  exact t.pattern.findsLeftmost_search

end TermScan
