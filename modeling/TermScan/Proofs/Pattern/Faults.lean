import Mathlib.Data.List.DropRight
import TermScan.Proofs.Pattern.RoundTrip

/-!
# Faults are found where they are

The reader stops at the first character with which the source cannot be read on. What stands before
it is at worst cut off inside an optional or behind a backslash, and the character at the fault and
the one behind it settle the fault: whatever follows them, it is found again, at the same place.
-/
namespace TermScan

/-- The fault is that the source ends too early. -/
def Fault.isAtEnd : Fault → Bool
  | unclosedOptional | danglingEscape => true
  | _ => false

/-- What is reported is that the source ends too early. -/
def PatternError.IsAtEnd (e : PatternError) : Prop :=
  e.detail = Fault.unclosedOptional.message ∨ e.detail = Fault.danglingEscape.message

theorem Fault.message_of_isAtEnd {f : Fault} (h : f.isAtEnd) :
    f.message = unclosedOptional.message ∨ f.message = danglingEscape.message := by
  cases f with
  | unclosedOptional => exact .inl rfl
  | danglingEscape => exact .inr rfl
  | _ => contradiction

/-! Places -/

namespace Position

/-- The place behind the given characters, of which the first stands at `here`. -/
def after (here : Position) (read : List Char) : Position := read.foldl advance here

theorem after_append (here : Position) (read more : List Char) :
    here.after (read ++ more) = (here.after read).after more := List.foldl_append

theorem after_concat (here : Position) (read : List Char) (c : Char) :
    here.after (read ++ [c]) = (here.after read).advance c := after_append here read [c]

theorem line_after (read : List Char) : (start.after read).line = 1 + read.count '\n' := by
  induction read using List.reverseRecOn with
  | nil => rfl
  | append_singleton read c ih =>
    rw [after_concat, advance, List.count_append]
    by_cases h : c = '\n'
    · simp [h, ih]
      omega
    · simp [h, ih]

theorem column_after (read : List Char) :
    (start.after read).column = 1 + (read.rtakeWhile (· != '\n')).length := by
  induction read using List.reverseRecOn with
  | nil => rfl
  | append_singleton read c ih =>
    rw [after_concat, advance, List.rtakeWhile_concat]
    by_cases h : c = '\n'
    · simp [h]
    · simp [h, ih]
      omega

end Position

namespace Pattern

theorem map_eq_error_iff {ε α β : Type} {f : α → β} {x : Except ε α} {e : ε} :
    x.map f = .error e ↔ x = .error e := by
  cases x <;> simp [Except.map]

/-- A fault that a reader reports behind the first `k` characters, where it has the place that the
reader has kept. These characters can at worst be said to end too early, and the next two settle the
fault. -/
structure LocatedAt {α : Type} (read : List Char → Except FaultAt α) (here : Position)
    (source : List Char) (e : FaultAt) (k : Nat) : Prop where
  within : k ≤ source.length
  position_eq : e.position = here.after (source.take k)
  before : ∀ e', read (source.take k) = .error e' → e'.fault.isAtEnd
  settled : e.fault.isAtEnd = false → ∀ rest, read (source.take (k + 2) ++ rest) = .error e

/-- The fault is ahead of the reader, the next character of which stands at `here`. -/
def Located {α : Type} (read : List Char → Except FaultAt α) (here : Position)
    (source : List Char) (e : FaultAt) : Prop :=
  ∃ k, LocatedAt read here source e k

namespace Located

variable {α β : Type} {read : List Char → Except FaultAt α} {read' : List Char → Except FaultAt β}
  {here : Position} {e : FaultAt}

/-- A reader that passes over characters finds the faults of the reader that it goes on as. -/
theorem append (chars : List Char) {source : List Char}
    (passes : ∀ cs e, read' (chars ++ cs) = .error e ↔ read cs = .error e)
    (h : Located read (here.after chars) source e) : Located read' here (chars ++ source) e := by
  obtain ⟨k, within, position_eq, before, settled⟩ := h
  refine ⟨chars.length + k, by rw [List.length_append]; omega, ?_, fun e' he' => ?_,
    fun hend rest => ?_⟩
  · rw [List.take_length_add_append, Position.after_append, position_eq]
  · rw [List.take_length_add_append, passes] at he'
    exact before e' he'
  · rw [Nat.add_assoc, List.take_length_add_append, List.append_assoc, passes]
    exact settled hend rest

/-- A fault that shows at the first character or the first two. -/
theorem at_first (fault : Fault) (front : List Char) (short : front.length ≤ 2)
    (cut : ∀ e', read [] = .error e' → e'.fault.isAtEnd)
    (settled : ∀ rest, read (front ++ rest) = .error ⟨here, fault⟩) {source : List Char}
    (h : read (front ++ source) = .error e) : Located read here (front ++ source) e := by
  obtain rfl := Except.error.inj ((settled source).symm.trans h)
  refine ⟨0, Nat.zero_le _, rfl, cut, fun _ rest => ?_⟩
  rw [List.take_append, List.take_of_length_le (by omega), List.append_assoc]
  exact settled _

/-- A fault that shows at the second character, where the first one alone ends too early. -/
theorem at_second (fault : Fault) (c d : Char)
    (cut : read [c] = .error ⟨here, .danglingEscape⟩)
    (settled : ∀ rest, read (c :: d :: rest) = .error ⟨here.advance c, fault⟩) {source : List Char}
    (h : read (c :: d :: source) = .error e) : Located read here (c :: d :: source) e := by
  obtain rfl := Except.error.inj ((settled source).symm.trans h)
  refine ⟨1, by simp, rfl, fun e' he' => ?_, fun _ _ => settled _⟩
  obtain rfl := Except.error.inj (cut.symm.trans he')
  rfl

/-- A source that ends too early. -/
theorem at_end (fault : Fault) {source : List Char} (ends : fault.isAtEnd)
    (cut : ∀ e', read [] = .error e' → e'.fault.isAtEnd)
    (settled : read source = .error ⟨here, fault⟩) (h : read source = .error e) :
    Located read here source e := by
  obtain rfl := Except.error.inj (settled.symm.trans h)
  exact ⟨0, Nat.zero_le _, rfl, cut, fun hnot => by simp [ends] at hnot⟩

end Located

theorem isAtEnd_of_readNodes_nil {here : Position} (e : FaultAt)
    (h : readNodes here [] = .error e) : e.fault.isAtEnd := by
  simp [readNodes] at h

theorem isAtEnd_of_readOptional_nil {opened here : Position} {content : Content} (e : FaultAt)
    (h : readOptional opened here content [] = .error e) : e.fault.isAtEnd := by
  simp only [readOptional, Except.error.injEq] at h
  exact h ▸ rfl

/-- An optional that is closed at once is the only thing at fault where it began. -/
def ClosedAtOnce (opened : Position) (content : Content) (source : List Char) (e : FaultAt) :
    Prop :=
  e = ⟨opened, .emptyOptional⟩ ∧ content = .nothing ∧ ∃ rest, source = ']' :: rest

/-- Every fault is ahead of the reader, whichever state it is in, but for that of an optional that
is closed at once. The recursion is that of the reader itself. -/
theorem located_of_read_rest :
    (∀ here source e, readNodes here source = .error e →
      Located (readNodes here) here source e) ∧
    (∀ opened here content source e, readOptional opened here content source = .error e →
      ClosedAtOnce opened content source e ∨
        Located (readOptional opened here content) here source e) := by
  refine readNodes.mutual_induct
    (fun here source => ∀ e, readNodes here source = .error e →
      Located (readNodes here) here source e)
    (fun opened here content source => ∀ e, readOptional opened here content source = .error e →
      ClosedAtOnce opened content source e ∨
        Located (readOptional opened here content) here source e)
    ?nil ?bar ?misplaced ?opening ?unmatched ?wildcard ?dangling ?escape ?invalid ?plain
    ?unclosed ?empty ?closing ?nested ?boundary ?optWildcard ?optMixed ?optDangling
    ?optEscapeMixed ?optEscape ?optInvalid ?optPlainMixed ?optPlain
  case nil | bar => intros; simp_all [readNodes]
  -- between nodes: the reader stops
  case misplaced =>
    intro here c rest e h
    exact .at_first .misplacedBoundary ['|', c] (by simp) isAtEnd_of_readNodes_nil
      (fun rest => by simp [readNodes]) h
  case unmatched =>
    intro here rest e h
    exact .at_first .unmatchedBracket [']'] (by simp) isAtEnd_of_readNodes_nil
      (fun rest => by simp [readNodes]) h
  case dangling =>
    intro here e h
    exact .at_end .danglingEscape rfl isAtEnd_of_readNodes_nil (by rw [readNodes]) h
  case invalid =>
    intro here c rest special e h
    exact .at_second (.invalidEscape c) '\\' c (by rw [readNodes])
      (fun rest => by rw [readNodes, if_neg special]) h
  -- between nodes: the reader goes on
  case wildcard =>
    intro here rest ih e h
    rw [readNodes, map_eq_error_iff] at h
    exact (ih e h).append ['?'] fun cs e => by simp [readNodes, map_eq_error_iff]
  case escape =>
    intro here c rest special ih e h
    rw [readNodes, if_pos special, map_eq_error_iff] at h
    exact (ih e h).append ['\\', c] fun cs e => by simp [readNodes, special, map_eq_error_iff]
  case plain =>
    intro here c rest h1 h2 h3 h4 h5 ih e h
    have plain := isSpecial_eq_false h1 h2 h3 h4 h5
    rw [readNodes_plain plain, map_eq_error_iff] at h
    exact (ih e h).append [c] fun cs e => by simp [readNodes_plain plain, map_eq_error_iff]
  case opening =>
    intro here rest ih e h
    rw [readNodes] at h
    rcases ih e h with ⟨rfl, -, rest, rfl⟩ | located
    · exact .at_first .emptyOptional ['[', ']'] (by simp) isAtEnd_of_readNodes_nil
        (fun rest => by simp [readNodes, readOptional, Content.atom?]) h
    · exact located.append ['['] fun cs e => by simp [readNodes]
  -- inside an optional: the reader stops
  case unclosed =>
    intro opened here content e h
    exact .inr (.at_end .unclosedOptional rfl isAtEnd_of_readOptional_nil (by rw [readOptional]) h)
  case empty =>
    intro opened here content rest hnone e h
    rw [readOptional, hnone] at h
    refine .inl ⟨(Except.error.inj h).symm, ?_, rest, rfl⟩
    cases content <;> simp [Content.atom?] at hnone ⊢
  case nested =>
    intro opened here content rest e h
    exact .inr (.at_first .nestedOptional ['['] (by simp) isAtEnd_of_readOptional_nil
      (fun rest => by simp [readOptional]) h)
  case boundary =>
    intro opened here content rest e h
    exact .inr (.at_first .boundaryInOptional ['|'] (by simp) isAtEnd_of_readOptional_nil
      (fun rest => by simp [readOptional]) h)
  case optMixed =>
    intro opened here content rest hne e h
    refine .inr (.at_first .mixedOptional ['?'] (by simp) isAtEnd_of_readOptional_nil
      (fun rest => ?_) h)
    cases content <;> simp [readOptional] at hne ⊢
  case optDangling =>
    intro opened here content e h
    exact .inr (.at_end .danglingEscape rfl isAtEnd_of_readOptional_nil (by rw [readOptional]) h)
  case optEscapeMixed =>
    intro opened here content c rest special hnone e h
    exact .inr (.at_first .mixedOptional ['\\', c] (by simp) isAtEnd_of_readOptional_nil
      (fun rest => by simp [readOptional, special, hnone]) h)
  case optInvalid =>
    intro opened here content c rest special e h
    exact .inr (.at_second (.invalidEscape c) '\\' c (by rw [readOptional])
      (fun rest => by rw [readOptional, if_neg special]) h)
  case optPlainMixed =>
    intro opened here content c rest h1 h2 h3 h4 h5 hnone e h
    have plain := isSpecial_eq_false h3 h2 h1 h4 h5
    exact .inr (.at_first .mixedOptional [c] (by simp) isAtEnd_of_readOptional_nil
      (fun rest => by simp [readOptional_plain plain, hnone]) h)
  -- inside an optional: the reader goes on
  case closing =>
    intro opened here content rest atom hatom ih e h
    rw [readOptional, hatom, map_eq_error_iff] at h
    exact .inr ((ih e h).append [']'] fun cs e => by simp [readOptional, hatom, map_eq_error_iff])
  case optWildcard =>
    intro opened here rest ih e h
    rw [readOptional] at h
    rcases ih e h with ⟨-, hcontent, -⟩ | located
    · contradiction
    · exact .inr (located.append ['?'] fun cs e => by simp [readOptional])
  case optEscape =>
    intro opened here content c rest special content' hcontent ih e h
    rw [readOptional, if_pos special, hcontent] at h
    rcases ih e h with ⟨-, rfl, -⟩ | located
    · cases content <;> simp [Content.addChar?] at hcontent
    · exact .inr (located.append ['\\', c] fun cs e => by simp [readOptional, special, hcontent])
  case optPlain =>
    intro opened here content c rest h1 h2 h3 h4 h5 content' hcontent ih e h
    have plain := isSpecial_eq_false h3 h2 h1 h4 h5
    rw [readOptional_plain plain, hcontent] at h
    rcases ih e h with ⟨-, rfl, -⟩ | located
    · cases content <;> simp [Content.addChar?] at hcontent
    · exact .inr (located.append [c] fun cs e => by simp [readOptional_plain plain, hcontent])

theorem read_eq_readNodes {source : List Char} (h : source.head? ≠ some '|') :
    read source = (readNodes .start source).map fun b => ⟨false, b.endBoundary, b.nodes⟩ := by
  rw [read.eq_def]
  split
  · simp at h
  · rfl

/-- The flag at the start does not hide faults, and where there is none, none is made up. -/
theorem located_of_read {source : List Char} {e : FaultAt} (h : read source = .error e) :
    Located read .start source e := by
  by_cases hbar : source.head? = some '|'
  · obtain ⟨rest, rfl⟩ := List.head?_eq_some_iff.mp hbar
    rw [read, map_eq_error_iff] at h
    exact (located_of_read_rest.1 _ rest e h).append ['|'] fun cs e => by
      simp [read, map_eq_error_iff]
  · rw [read_eq_readNodes hbar, map_eq_error_iff] at h
    obtain ⟨k, within, position_eq, before, settled⟩ := located_of_read_rest.1 .start source e h
    refine ⟨k, within, position_eq, fun e' he' => before e' ?_, fun hend rest => ?_⟩
    · have hhead : (source.take k).head? ≠ some '|' := by
        rw [List.head?_take]
        split_ifs <;> simp_all
      rwa [read_eq_readNodes hhead, map_eq_error_iff] at he'
    · have hhead : (source.take (k + 2) ++ rest).head? ≠ some '|' := by
        cases source with
        | nil => simp [readNodes] at h
        | cons c source => simpa using hbar
      rw [read_eq_readNodes hhead, map_eq_error_iff]
      exact settled hend rest

theorem parse_eq_error_iff {source : String} {e : PatternError} :
    parse source = .error e ↔ ∃ f, read source.toList = .error f ∧
      e = ⟨f.fault.message, f.position⟩ := by
  unfold parse
  cases read source.toList <;> simp [Except.mapError, eq_comm]

/-- The place of a fault is that behind the first `k` characters, for some `k`. What stands before
it is read or found to end too early, so it is not at fault. Unless the source itself ends too
early, the same is reported whatever stands behind the next two characters. -/
theorem fault_located {source : String} {e : PatternError} (h : parse source = .error e) :
    ∃ k ≤ source.toList.length,
      e.position.line = 1 + (source.toList.take k).count '\n' ∧
      e.position.column = 1 + ((source.toList.take k).rtakeWhile (· != '\n')).length ∧
      (∀ e', parse (.ofList (source.toList.take k)) = .error e' → e'.IsAtEnd) ∧
      (¬e.IsAtEnd → ∀ t : String,
        parse (.ofList (source.toList.take (min (k + 2) source.toList.length)) ++ t) =
          .error e) := by
  obtain ⟨f, hf, rfl⟩ := parse_eq_error_iff.mp h
  obtain ⟨k, within, position_eq, before, settled⟩ := located_of_read hf
  dsimp only
  rw [position_eq]
  refine ⟨k, within, Position.line_after _, Position.column_after _, fun e' he' => ?_,
    fun hend t => ?_⟩
  · obtain ⟨f', hf', rfl⟩ := parse_eq_error_iff.mp he'
    rw [String.toList_ofList] at hf'
    exact Fault.message_of_isAtEnd (before f' hf')
  · have hnot : f.fault.isAtEnd = false := by
      by_contra h
      exact hend (Fault.message_of_isAtEnd (by simpa using h))
    refine parse_eq_error_iff.mpr ⟨f, ?_, by rw [position_eq]⟩
    rw [String.toList_append, String.toList_ofList, ← List.take_eq_take_min]
    exact settled hnot t.toList

/-- A bracket is nested in the second line; the text before it ends too early, and the bracket
alone, with anything behind it, gives the same report. -/
theorem fault_located_sample :
    let source := "é\n[a[b]]"
    let e : PatternError := ⟨Fault.nestedOptional.message, ⟨2, 3⟩⟩
    parse source = .error e ∧ ¬e.IsAtEnd ∧ ∃ k ≤ source.toList.length,
      e.position.line = 1 + (source.toList.take k).count '\n' ∧
      e.position.column = 1 + ((source.toList.take k).rtakeWhile (· != '\n')).length ∧
      (∀ e', parse (.ofList (source.toList.take k)) = .error e' → e'.IsAtEnd) ∧
      ∀ t : String, parse (.ofList (source.toList.take (min (k + 2) source.toList.length)) ++ t) =
        .error e := by
  intro source e
  have hparse : parse source = .error e := by decide
  have hend : ¬e.IsAtEnd := by
    unfold PatternError.IsAtEnd
    decide
  obtain ⟨k, hk, hline, hcolumn, hbefore, hsettled⟩ := fault_located hparse
  exact ⟨hparse, hend, k, hk, hline, hcolumn, hbefore, hsettled hend⟩

end Pattern

end TermScan
