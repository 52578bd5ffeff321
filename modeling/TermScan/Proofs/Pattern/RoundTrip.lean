import Mathlib.Data.List.Chain
import TermScan.Pattern.Parser
import TermScan.Pattern.Printer

/-!
# Reading and writing patterns

A canonical pattern is one that can be told from its written form: no literal is empty, no two
literals stand side by side, and a lone bar is the flag at the start. The reader accepts exactly
the written forms of canonical patterns, each of them as the one pattern it is the form of.
-/
namespace TermScan

@[simp] theorem escapeLiteral_append (a b : List Char) :
    escapeLiteral (a ++ b) = escapeLiteral a ++ escapeLiteral b := by
  induction a with
  | nil => rfl
  | cons c a ih => simp only [List.cons_append, escapeLiteral, ih]; split <;> rfl

namespace Node

/-- The node holds a wildcard or at least one character. -/
def filled : Node → Bool
  | one (.literal chars) | optional (.literal chars) => !chars.isEmpty
  | _ => true

/-- The node is a literal that must occur. -/
def isLiteral : Node → Bool
  | one (.literal _) => true
  | _ => false

end Node

/-- No node is empty, and no literal could be joined with the one before it. -/
structure Canonical (nodes : List Node) : Prop where
  filled : ∀ n ∈ nodes, n.filled
  apart : nodes.IsChain fun a b => ¬(a.isLiteral ∧ b.isLiteral)

theorem canonical_nil : Canonical [] := ⟨by simp, .nil⟩

theorem canonical_cons {n : Node} {nodes : List Node} :
    Canonical (n :: nodes) ↔
      n.filled ∧ (∀ m ∈ nodes.head?, ¬(n.isLiteral ∧ m.isLiteral)) ∧ Canonical nodes := by
  constructor
  · rintro ⟨filled, apart⟩
    rw [List.isChain_cons] at apart
    exact ⟨filled n List.mem_cons_self, apart.1, fun m h => filled m (List.mem_cons_of_mem n h),
      apart.2⟩
  · rintro ⟨hn, hhead, filled, apart⟩
    exact ⟨List.forall_mem_cons.mpr ⟨hn, filled⟩, List.isChain_cons.mpr ⟨hhead, apart⟩⟩

namespace Pattern

/-- The pattern is the only one of its kind with its written form. A lone bar is read as the flag
at the start, so a pattern without nodes must not have the other flag alone. -/
structure IsCanonical (p : Pattern) : Prop where
  nodes : Canonical p.nodes
  flags : ¬(p.nodes = [] ∧ p.endBoundary = true ∧ p.startBoundary = false)

namespace Body

/-- What follows the flag at the start, as it is written. -/
def source (b : Body) : List Char := b.nodes.flatMap Node.source ++ bar b.endBoundary

@[simp] theorem source_push (n : Node) (b : Body) : (b.push n).source = n.source ++ b.source := by
  simp [source, push]

@[simp] theorem source_pushChar (c : Char) (b : Body) :
    (b.pushChar c).source = escapeLiteral [c] ++ b.source := by
  unfold pushChar
  split
  · next chars rest h =>
    simp only [source, h, List.flatMap_cons, Node.source, Atom.source]
    rw [← List.singleton_append, escapeLiteral_append]
    simp
  · simp [source, Node.source, Atom.source]

theorem canonical_pushChar {c : Char} {b : Body} (h : Canonical b.nodes) :
    Canonical (b.pushChar c).nodes := by
  unfold pushChar
  split
  · next chars rest hb =>
    rw [hb, canonical_cons] at h
    exact canonical_cons.mpr ⟨rfl, fun m hm => h.2.1 m hm, h.2.2⟩
  · next hb =>
    refine canonical_cons.mpr ⟨rfl, fun m hm both => ?_, h⟩
    cases hn : b.nodes with
    | nil => simp [hn] at hm
    | cons n rest =>
      obtain rfl : n = m := by simpa [hn] using hm
      match n, both.2 with
      | .one (.literal chars), _ => exact hb chars rest hn

/-- A source is the written form of a canonical rest of a pattern. -/
structure Writes (b : Body) (source : List Char) : Prop where
  source_eq : b.source = source
  canonical : Canonical b.nodes

namespace Writes

variable {b : Body} {source : List Char}

theorem last (flag : Bool) : Writes ⟨[], flag⟩ (bar flag) := ⟨rfl, canonical_nil⟩

theorem push {n : Node} (h : b.Writes source) (filled : n.filled) (joins : n.isLiteral = false) :
    (b.push n).Writes (n.source ++ source) := by
  constructor
  · rw [source_push, h.source_eq]
  · exact canonical_cons.mpr ⟨filled, by simp [joins], h.canonical⟩

theorem pushChar (c : Char) (h : b.Writes source) :
    (b.pushChar c).Writes (escapeLiteral [c] ++ source) := by
  constructor
  · rw [source_pushChar, h.source_eq]
  · exact canonical_pushChar h.canonical

end Writes

end Body

namespace Content

/-- What an optional holds, as it is written. -/
def source : Content → List Char
  | nothing => []
  | wildcard => ['?']
  | literal last earlier => escapeLiteral (last :: earlier).reverse

theorem source_of_addChar? {c : Char} {content content' : Content}
    (h : content.addChar? c = some content') :
    content'.source = content.source ++ escapeLiteral [c] := by
  cases content with
  | nothing => simp [addChar?] at h; subst h; simp [source]
  | wildcard => simp [addChar?] at h
  | literal last earlier =>
    simp only [addChar?, Option.some.injEq] at h
    subst h
    simp only [source, List.reverse_cons (a := c), escapeLiteral_append]

theorem source_of_atom? {content : Content} {atom : Atom} (h : content.atom? = some atom) :
    atom.source = content.source ∧ (Node.optional atom).filled := by
  cases content with
  | nothing => simp [atom?] at h
  | wildcard => simp [atom?] at h; subst h; exact ⟨rfl, rfl⟩
  | literal last earlier => simp [atom?] at h; subst h; simp [source, Atom.source, Node.filled]

end Content

theorem escapeLiteral_special {c : Char} (h : isSpecial c) : escapeLiteral [c] = ['\\', c] := by
  simp [escapeLiteral, h]

theorem escapeLiteral_plain {c : Char} (h : isSpecial c = false) : escapeLiteral [c] = [c] := by
  simp [escapeLiteral, h]

theorem isSpecial_eq_false {c : Char} (bar : c ≠ '|') (opening : c ≠ '[') (closing : c ≠ ']')
    (wild : c ≠ '?') (escape : c ≠ '\\') : isSpecial c = false := by
  unfold isSpecial
  split <;> simp_all

theorem map_eq_ok_iff {ε α β : Type} {f : α → β} {x : Except ε α} {b : β} :
    x.map f = .ok b ↔ ∃ a, x = .ok a ∧ f a = b := by
  cases x <;> simp [Except.map]

theorem readNodes_plain {c : Char} (plain : isSpecial c = false) (here : Position)
    (rest : List Char) :
    readNodes here (c :: rest) = (readNodes (here.advance c) rest).map (Body.pushChar c) := by
  rw [readNodes] <;> rintro rfl <;> simp [isSpecial] at plain

theorem readOptional_plain {c : Char} (plain : isSpecial c = false) (opened here : Position)
    (content : Content) (rest : List Char) :
    readOptional opened here content (c :: rest) =
      match content.addChar? c with
      | none => .error ⟨here, .mixedOptional⟩
      | some content => readOptional opened (here.advance c) content rest := by
  have apart {d : Char} (special : isSpecial d) : c ≠ d := by
    intro h
    rw [← h, plain] at special
    contradiction
  have closing : c ≠ ']' := apart rfl
  have opening : c ≠ '[' := apart rfl
  have bar : c ≠ '|' := apart rfl
  have wild : c ≠ '?' := apart rfl
  have escape : c ≠ '\\' := apart rfl
  cases hadd : content.addChar? c <;> simp [readOptional, hadd]

/-- What comes in front of what the reader accepts is written in front of it. -/
theorem writes_of_map {f : Body → Body} {x : Except FaultAt Body} {source : List Char} {b : Body}
    (written : ∀ b, x = .ok b → (f b).Writes source) (h : x.map f = .ok b) : b.Writes source := by
  obtain ⟨b, hb, rfl⟩ := map_eq_ok_iff.mp h
  exact written b hb

/-- What the reader accepts is the written form of a canonical rest of a pattern. The recursion is
that of the reader itself; inside an optional, what has been read of it stands before the rest. -/
theorem writes_of_read_rest :
    (∀ here source b, readNodes here source = .ok b → b.Writes source) ∧
    (∀ opened here content source b, readOptional opened here content source = .ok b →
      b.Writes ('[' :: content.source ++ source)) := by
  refine readNodes.mutual_induct
    (fun here source => ∀ b, readNodes here source = .ok b → b.Writes source)
    (fun opened here content source => ∀ b, readOptional opened here content source = .ok b →
      b.Writes ('[' :: content.source ++ source))
    ?nil ?bar ?misplaced ?opening ?unmatched ?wildcard ?dangling ?escape ?invalid ?plain
    ?unclosed ?empty ?closing ?nested ?boundary ?optWildcard ?optMixed ?optDangling
    ?optEscapeMixed ?optEscape ?optInvalid ?optPlainMixed ?optPlain
  case misplaced | unmatched | dangling => intros; simp_all [readNodes]
  case invalid => intro here c rest special b h; simp [readNodes, special] at h
  case unclosed | nested | boundary | optDangling => intros; simp_all [readOptional]
  case empty => intro opened here content rest hnone b h; simp [readOptional, hnone] at h
  case optMixed => intro opened here content rest hne b h; simp [readOptional] at h
  case optEscapeMixed =>
    intro opened here content c rest special hnone b h
    simp [readOptional, special, hnone] at h
  case optInvalid =>
    intro opened here content c rest special b h
    simp [readOptional, special] at h
  case optPlainMixed =>
    intro opened here content c rest h1 h2 h3 h4 h5 hnone b h
    simp [readOptional, hnone] at h
  case nil =>
    intro here b h
    simp only [readNodes, Except.ok.injEq] at h
    exact h ▸ .last false
  case bar =>
    intro here b h
    simp only [readNodes, Except.ok.injEq] at h
    exact h ▸ .last true
  case opening =>
    intro here rest ih b h
    rw [readNodes] at h
    exact ih b h
  case wildcard =>
    intro here rest ih b h
    rw [readNodes] at h
    exact writes_of_map (fun b hb => (ih b hb).push rfl rfl) h
  case escape =>
    intro here c rest special ih b h
    rw [readNodes, if_pos special] at h
    change b.Writes (['\\', c] ++ rest)
    rw [← escapeLiteral_special special]
    exact writes_of_map (fun b hb => (ih b hb).pushChar c) h
  case plain =>
    intro here c rest h1 h2 h3 h4 h5 ih b h
    have plain := isSpecial_eq_false h1 h2 h3 h4 h5
    rw [readNodes_plain plain] at h
    change b.Writes ([c] ++ rest)
    rw [← escapeLiteral_plain plain]
    exact writes_of_map (fun b hb => (ih b hb).pushChar c) h
  case closing =>
    intro opened here content rest atom hatom ih b h
    rw [readOptional, hatom] at h
    obtain ⟨hsource, filled⟩ := Content.source_of_atom? hatom
    have hnode : '[' :: content.source ++ ']' :: rest = (Node.optional atom).source ++ rest := by
      simp [Node.source, hsource]
    rw [hnode]
    exact writes_of_map (fun b hb => (ih b hb).push filled rfl) h
  case optWildcard =>
    intro opened here rest ih b h
    rw [readOptional] at h
    exact ih b h
  case optEscape =>
    intro opened here content c rest special content' hcontent ih b h
    rw [readOptional, if_pos special, hcontent] at h
    have written := ih b h
    rw [Content.source_of_addChar? hcontent, escapeLiteral_special special] at written
    simpa using written
  case optPlain =>
    intro opened here content c rest h1 h2 h3 h4 h5 content' hcontent ih b h
    have plain := isSpecial_eq_false h3 h2 h1 h4 h5
    rw [readOptional_plain plain, hcontent] at h
    have written := ih b h
    rw [Content.source_of_addChar? hcontent, escapeLiteral_plain plain] at written
    simpa using written

/-- A written character is read back in front of whatever follows it. -/
theorem readNodes_escapeLiteral_singleton (c : Char) (here : Position) (rest : List Char) :
    ∃ next, readNodes here (escapeLiteral [c] ++ rest) =
      (readNodes next rest).map (Body.pushChar c) := by
  cases special : isSpecial c with
  | true =>
    exact ⟨(here.advance '\\').advance c, by
      simp [escapeLiteral_special special, readNodes, special]⟩
  | false => exact ⟨here.advance c, by simp [escapeLiteral_plain special, readNodes_plain special]⟩

/-- A written literal is read back as one node, in front of a rest that starts with none. -/
theorem readNodes_escapeLiteral {chars : List Char} (filled : chars ≠ []) {rest : List Char}
    {b : Body} (read : ∀ here, readNodes here rest = .ok b)
    (apart : ∀ m ∈ b.nodes.head?, m.isLiteral = false) (here : Position) :
    readNodes here (escapeLiteral chars ++ rest) = .ok (b.push (.one (.literal chars))) := by
  induction chars generalizing here with
  | nil => contradiction
  | cons c chars ih =>
    rw [← List.singleton_append, escapeLiteral_append, List.append_assoc]
    obtain ⟨next, hnext⟩ := readNodes_escapeLiteral_singleton c here (escapeLiteral chars ++ rest)
    rw [hnext]
    cases chars with
    | nil =>
      rw [escapeLiteral, List.nil_append, read next]
      obtain ⟨nodes, flag⟩ := b
      have alone : ∀ chars rest, nodes ≠ .one (.literal chars) :: rest := by
        rintro chars rest rfl
        simp [Node.isLiteral] at apart
      simp [Except.map, Body.pushChar, Body.push]
    | cons d chars => rw [ih (by simp) next]; rfl

/-- The literal characters an optional holds. -/
def Content.chars : Content → List Char
  | nothing | wildcard => []
  | literal last earlier => (last :: earlier).reverse

theorem Content.exists_addChar? {content : Content} (h : content ≠ wildcard) (c : Char) :
    ∃ content', content.addChar? c = some content' ∧ content' ≠ wildcard ∧
      content'.chars = content.chars ++ [c] := by
  cases content with
  | nothing => exact ⟨_, rfl, by simp, rfl⟩
  | wildcard => contradiction
  | literal last earlier => exact ⟨_, rfl, by simp, by simp [chars]⟩

theorem Content.atom?_eq_some {content : Content} (h : content ≠ wildcard)
    (filled : content.chars ≠ []) : content.atom? = some (.literal content.chars) := by
  cases content with
  | nothing => contradiction
  | wildcard => contradiction
  | literal last earlier => rfl

/-- The rest of a written optional literal is read back, behind what has been read of it. -/
theorem readOptional_escapeLiteral (opened : Position) (chars : List Char) (content : Content)
    (h : content ≠ .wildcard) (filled : content.chars ++ chars ≠ []) {rest : List Char} {b : Body}
    (read : ∀ here, readNodes here rest = .ok b) (here : Position) :
    readOptional opened here content (escapeLiteral chars ++ ']' :: rest) =
      .ok (b.push (.optional (.literal (content.chars ++ chars)))) := by
  induction chars generalizing content here with
  | nil =>
    rw [List.append_nil] at filled ⊢
    rw [escapeLiteral, List.nil_append, readOptional, Content.atom?_eq_some h filled, read]
    rfl
  | cons c chars ih =>
    obtain ⟨content', hadd, h', hchars⟩ := Content.exists_addChar? h c
    have ih := fun next => ih content' h' (by simp [hchars]) next
    rw [hchars, List.append_assoc, List.singleton_append] at ih
    rw [← List.singleton_append, escapeLiteral_append, List.append_assoc]
    cases special : isSpecial c with
    | true => simp [escapeLiteral_special special, readOptional, special, hadd, ih]
    | false => simp [escapeLiteral_plain special, readOptional_plain special, hadd, ih]

/-- A written canonical rest of a pattern is read back. -/
theorem readNodes_source {nodes : List Node} (h : Canonical nodes) (flag : Bool) (here : Position) :
    readNodes here (Body.source ⟨nodes, flag⟩) = .ok ⟨nodes, flag⟩ := by
  induction nodes generalizing here with
  | nil => cases flag <;> simp [Body.source, bar, readNodes]
  | cons n nodes ih =>
    obtain ⟨filled, apart, canonical⟩ := canonical_cons.mp h
    have ih := ih canonical
    change readNodes here (Body.source (Body.push n ⟨nodes, flag⟩)) = _
    rw [Body.source_push]
    match n with
    | .one (.literal chars) =>
      have alone : ∀ m ∈ nodes.head?, m.isLiteral = false := by
        simpa [Node.isLiteral] using apart
      exact readNodes_escapeLiteral (by simpa [Node.filled] using filled) ih alone here
    | .one .wildcard =>
      simp [Node.source, Atom.source, readNodes, ih, Except.map, Body.push]
    | .optional (.literal chars) =>
      have read := readOptional_escapeLiteral here chars .nothing (by simp)
        (by simpa [Node.filled, Content.chars] using filled) ih (here.advance '[')
      simpa [Node.source, Atom.source, readNodes, Content.chars, Body.push] using read
    | .optional .wildcard =>
      simp [Node.source, Atom.source, readNodes, readOptional, Content.atom?, ih, Except.map,
        Body.push]

/-- Written nodes never start with a bar; only the flag at the end does. -/
theorem head?_source_ne_bar {nodes : List Node} (h : Canonical nodes) (hne : nodes ≠ [])
    (flag : Bool) : (Body.source ⟨nodes, flag⟩).head? ≠ some '|' := by
  cases nodes with
  | nil => contradiction
  | cons n nodes =>
    have filled := (canonical_cons.mp h).1
    match n with
    | .one (.literal []) => simp [Node.filled] at filled
    | .one (.literal (c :: chars)) =>
      by_cases special : isSpecial c
      · simp [Body.source, Node.source, Atom.source, escapeLiteral, special]
      · have : c ≠ '|' := by rintro rfl; simp [isSpecial] at special
        simp [Body.source, Node.source, Atom.source, escapeLiteral, special, this]
    | .one .wildcard | .optional _ => simp [Body.source, Node.source, Atom.source]

theorem source_eq (p : Pattern) :
    p.source = bar p.startBoundary ++ Body.source ⟨p.nodes, p.endBoundary⟩ := by
  simp [source, Body.source]

theorem read_source {p : Pattern} (h : p.IsCanonical) : read p.source = .ok p := by
  obtain ⟨start, flag, nodes⟩ := p
  have body := readNodes_source h.nodes flag
  cases start with
  | true => simp [source_eq, bar, read, body _, Except.map]
  | false =>
    have hhead : (Body.source ⟨nodes, flag⟩).head? ≠ some '|' := by
      by_cases hne : nodes = []
      · have hflag : flag = false := by simpa [hne] using h.flags
        simp [hne, hflag, Body.source, bar]
      · exact head?_source_ne_bar h.nodes hne flag
    have : read (Body.source ⟨nodes, flag⟩) =
        (readNodes .start (Body.source ⟨nodes, flag⟩)).map fun b =>
          ⟨false, b.endBoundary, b.nodes⟩ := by
      rw [read]
      rintro rest hrest
      simp [hrest] at hhead
    simp [source_eq, bar, this, body .start, Except.map]

theorem source_of_read {source : List Char} {p : Pattern} (h : read source = .ok p) :
    p.source = source ∧ p.IsCanonical := by
  unfold read at h
  split at h
  · next rest =>
    obtain ⟨b, hb, rfl⟩ := map_eq_ok_iff.mp h
    obtain ⟨hsource, canonical⟩ := writes_of_read_rest.1 _ _ _ hb
    exact ⟨by simpa [source_eq, bar] using hsource, canonical, by simp⟩
  · next hbar =>
    obtain ⟨b, hb, rfl⟩ := map_eq_ok_iff.mp h
    obtain ⟨hsource, canonical⟩ := writes_of_read_rest.1 _ _ _ hb
    refine ⟨by simpa [source_eq, bar] using hsource, canonical, ?_⟩
    rintro ⟨hnodes, hflag, -⟩
    dsimp only at hnodes hflag
    exact hbar [] (by simpa [Body.source, bar, hnodes, hflag] using hsource.symm)

theorem read_eq_ok_iff {source : List Char} {p : Pattern} :
    read source = .ok p ↔ p.IsCanonical ∧ p.source = source :=
  ⟨fun h => (source_of_read h).symm, fun ⟨h, hsource⟩ => hsource ▸ read_source h⟩

/-- The reader accepts exactly the written forms of canonical patterns, each of them as the
pattern it is the form of. So what is written is read back, what is read is written as it was,
and the accepted texts are the written forms of canonical patterns. -/
theorem parse_eq_ok_iff :
    (∀ (source : String) (p : Pattern),
      parse source = .ok p ↔ p.IsCanonical ∧ p.render = source) ∧
    (∀ p : Pattern, p.IsCanonical → parse p.render = .ok p) ∧
    (∀ (source : String) (p : Pattern), parse source = .ok p → p.render = source) ∧
    (∀ source : String,
      (∃ p, parse source = .ok p) ↔ ∃ p : Pattern, p.IsCanonical ∧ p.render = source) := by
  have main (source : String) (p : Pattern) :
      parse source = .ok p ↔ p.IsCanonical ∧ p.render = source := by
    have accepted : parse source = .ok p ↔ read source.toList = .ok p := by
      unfold parse
      cases read source.toList <;> simp [Except.mapError]
    have written : p.render = source ↔ p.source = source.toList :=
      ⟨fun h => by rw [← h, render, String.toList_ofList],
        fun h => by rw [render, h, String.ofList_toList]⟩
    rw [accepted, read_eq_ok_iff, written]
  exact ⟨main, fun p h => (main _ p).mpr ⟨h, rfl⟩, fun source p h => ((main source p).mp h).2,
    fun source => exists_congr (main source)⟩

theorem parse_eq_ok_iff_sample :
    let p : Pattern := ⟨true, true, [.one (.literal ['a', '?']), .optional .wildcard]⟩
    p.IsCanonical ∧ p.render = "|a\\?[?]|" ∧ parse "|a\\?[?]|" = .ok p := by
  intro p
  have canonical : p.IsCanonical :=
    ⟨canonical_cons.mpr ⟨rfl, by decide, canonical_cons.mpr ⟨rfl, by decide, canonical_nil⟩⟩,
      by decide⟩
  have written : p.render = "|a\\?[?]|" := by decide
  refine ⟨canonical, written, ?_⟩
  rw [← written]
  exact parse_eq_ok_iff.2.1 p canonical

/-- Beside the excluded pattern stands the one that a lone bar is read as. -/
example : parse "|" = .ok ⟨true, false, []⟩ := by decide

end Pattern

end TermScan
