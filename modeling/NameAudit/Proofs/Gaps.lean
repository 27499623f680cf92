import NameAudit.Proofs.Lexemes

/-!
What stands between two tokens: blanks and complete comments (`Piece`). The scanner passes the longest
such text, and what it notes on the way can be read off the pieces (`trivia_gap`): their documentation
comments with their places, and whether one of them breaks the line. Before a token, a line break is
noted exactly if the text holds a line terminator (`breaksLine_iff`): a comment that runs to the end of
its line may hold one of the terminators that do not end it, but then the one that does comes next.
-/
namespace NameAudit.Scan

open Cursor (Passes Reaches Boundary)
open Text (isLineTerminator byteLength)

/-- A blank or a comment. -/
inductive Piece where
  | blank (c : Char)
  /-- A comment that begins with two slashes, by the text after them. -/
  | line (body : List Char)
  /-- A comment with delimiters at both ends, by the text between them. -/
  | block (body : List Char)

namespace Piece

/-- The text of a piece. -/
def text : Piece → List Char
  | blank c => [c]
  | line body => '/' :: '/' :: body
  | block body => '/' :: '*' :: (body ++ ['*', '/'])

/-- A piece stands before a text that does not continue it: a line comment runs to the end of its line,
and a block comment to the first closing delimiter. -/
def Complete (after : List Char) : Piece → Prop
  | blank c => isSpace c = true
  | line body => (∀ c ∈ body, staysInLine c = true) ∧ ∀ c ∈ after.head?, staysInLine c = false
  | block body => ¬ ['*', '/'] <:+: body ++ ['*']

/-- Line comments do not break the line. -/
def breaksLine : Piece → Bool
  | blank c => isLineTerminator c
  | line _ => false
  | block body => (block body).text.any isLineTerminator

/-- The text of several pieces. -/
def textOf (ps : List Piece) : List Char := ps.flatMap text

/-- Each piece is complete before those that follow it and the text after all of them. -/
def AllComplete (after : List Char) : List Piece → Prop
  | [] => True
  | p :: ps => p.Complete (textOf ps ++ after) ∧ AllComplete after ps

/-- Each piece is complete before what stands after it. -/
theorem AllComplete.of_append {p : Piece} {before after : List Piece} {rest : List Char}
    (complete : AllComplete rest (before ++ p :: after)) : p.Complete (textOf after ++ rest) := by
  induction before with
  | nil => exact complete.1
  | cons q before ih => exact ih complete.2

/-- The documentation comments among pieces from an offset on. -/
def docsFrom (offset : Nat) : List Piece → List DocComment
  | [] => []
  | p :: ps =>
    let stop := offset + byteLength p.text
    (if isDoc p.text then [⟨⟨offset, stop⟩, String.ofList p.text⟩] else []) ++ docsFrom stop ps

theorem isDoc_blank (c : Char) : isDoc (blank c).text = false := by
  simp [isDoc, text, List.isPrefixOf]

theorem isDoc_line (body : List Char) : isDoc (line body).text = false := by
  simp [isDoc, text, List.isPrefixOf]

/-- A text that begins with the end of a line can only begin with a blank that ends it. -/
theorem breaksLine_of_head {after : List Char} {ps : List Piece} (complete : AllComplete after ps)
    (some : ps ≠ []) (ends : ∀ c ∈ (textOf ps ++ after).head?, staysInLine c = false) :
    ps.any breaksLine = true := by
  cases ps with
  | nil => exact (some rfl).elim
  | cons p ps =>
    cases p with
    | blank c =>
      have ends := ends c (by simp [textOf, text])
      have line : c = '\n' ∨ c = '\r' := by
        by_cases feed : c = '\n'
        · exact .inl feed
        · exact .inr (by simpa [staysInLine, feed] using ends)
      rcases line with rfl | rfl <;> simp [breaksLine, isLineTerminator]
    | line body => exact absurd (ends '/' (by simp [textOf, text])) (by decide)
    | block body => exact absurd (ends '/' (by simp [textOf, text])) (by decide)

/-- Before a character that is on the line, pieces break the line if they hold a line terminator. -/
theorem breaksLine_iff {after : List Char} {ps : List Piece} {ch : Char}
    (complete : AllComplete after ps) (next : after.head? = some ch)
    (stays : staysInLine ch = true) :
    ps.any breaksLine = true ↔ ∃ c ∈ textOf ps, isLineTerminator c = true := by
  induction ps with
  | nil => simp [textOf]
  | cons p ps ih =>
    obtain ⟨here, later⟩ := complete
    have ih := ih later
    have texts : textOf (p :: ps) = p.text ++ textOf ps := rfl
    rw [List.any_cons, Bool.or_eq_true, ih, texts]
    cases p with
    | blank c => simp [breaksLine, text]
    | block body => simp only [breaksLine, List.any_eq_true, List.mem_append, or_and_right, exists_or]
    | line body =>
      have more : ps ≠ [] := by
        rintro rfl
        exact absurd stays (by simp [here.2 ch (by simpa [textOf] using next)])
      have breaks := ih.mp (breaksLine_of_head later more here.2)
      obtain ⟨c, member, ends⟩ := breaks
      constructor
      · rintro (none | ⟨c, member, ends⟩)
        · cases none
        · exact ⟨c, List.mem_append_right _ member, ends⟩
      · exact fun _ => .inr ⟨c, member, ends⟩

end Piece

open Piece (textOf AllComplete docsFrom)

/-- A text at which a token begins, or which is empty. -/
def StartsToken (cs : List Char) : Prop :=
  ∀ c ∈ cs.head?, isSpace c = false ∧ isLineTerminator c = false

/-- What was noted before some pieces, and what they add. -/
structure Notes (seen : Trivia) (offset : Nat) (ps : List Piece) (noted : Trivia) : Prop where
  newline : noted.newline = (seen.newline || ps.any Piece.breaksLine)
  docs : noted.docs = seen.docs ++ docsFrom offset ps

variable {seen noted : Trivia} {c d : Cursor} {offset : Nat} {cs : List Char}

theorem Notes.cons {p : Piece} {ps : List Piece} {middle : Trivia}
    (first : Notes seen offset [p] middle)
    (later : Notes middle (offset + byteLength p.text) ps noted) :
    Notes seen offset (p :: ps) noted := by
  refine ⟨?_, ?_⟩
  · rw [later.newline, first.newline]
    simp [Bool.or_assoc]
  · rw [later.docs, first.docs]
    simp [docsFrom]

/-- A block comment runs to the first closing delimiter. -/
theorem closeComment_body (found : closeComment offset cs = some d) :
    ∃ body, Passes ⟨offset, cs⟩ (body ++ ['*', '/']) d ∧ ¬ ['*', '/'] <:+: body ++ ['*'] := by
  fun_induction closeComment offset cs with
  | case1 => cases found
  | case2 offset cs =>
    cases found
    exact ⟨[], ⟨rfl, rfl⟩, by decide⟩
  | case3 offset c cs other ih =>
    obtain ⟨body, passes, first⟩ := ih found
    refine ⟨c :: body, passes.cons, fun inside => ?_⟩
    rcases List.infix_cons_iff.mp inside with ⟨tail, begins⟩ | later
    · obtain ⟨rfl, slash⟩ := List.cons_eq_cons.mp begins
      have slash : '/' :: tail = body ++ ['*'] := slash
      have rest : cs = body ++ ['*', '/'] ++ d.rest := passes.1
      refine other (tail ++ '/' :: d.rest) rfl ?_
      calc cs = (body ++ ['*']) ++ '/' :: d.rest := by simp [rest]
        _ = '/' :: (tail ++ '/' :: d.rest) := by rw [← slash]; simp
    · exact first later

theorem notes_blank {ch : Char} (same : isLineTerminator ch = false) :
    Notes seen offset [.blank ch] seen :=
  ⟨by simp [Piece.breaksLine, same], by simp [docsFrom, Piece.isDoc_blank]⟩

theorem notes_lineEnd {ch : Char} (ends : isLineTerminator ch = true) :
    Notes seen offset [.blank ch] { seen with newline := true } :=
  ⟨by simp [Piece.breaksLine, ends], by simp [docsFrom, Piece.isDoc_blank]⟩

theorem notes_line (body : List Char) : Notes seen offset [.line body] seen :=
  ⟨by simp [Piece.breaksLine], by simp [docsFrom, Piece.isDoc_line]⟩

theorem notes_block (body : List Char) :
    Notes seen offset [.block body]
      (seen.addComment ⟨offset, offset + byteLength (Piece.block body).text⟩
        (Piece.block body).text) := by
  refine ⟨by simp [Trivia.addComment, Piece.breaksLine], ?_⟩
  simp only [Trivia.addComment, docsFrom]
  split <;> simp

/-! ### What the scanner passes -/

theorem complete_blank {ch : Char} (here : c.rest = ch :: cs) (space : isSpace ch = true) :
    c.Passes (Piece.blank ch).text (c.skip 1) ∧ (Piece.blank ch).Complete (c.skip 1).rest :=
  ⟨Cursor.passes_skip_of_rest [ch] here, space⟩

theorem complete_line (here : c.rest = '/' :: '/' :: cs) :
    ∃ body, c.Passes (Piece.line body).text ((c.skip 2).skipWhile staysInLine) ∧
      (Piece.line body).Complete ((c.skip 2).skipWhile staysInLine).rest := by
  have opening := Cursor.passes_skip_of_rest ['/', '/'] here
  refine ⟨(c.skip 2).rest.takeWhile staysInLine, opening.trans (Cursor.passes_skipWhile _ _), ?_, ?_⟩
  · exact List.all_eq_true.mp List.all_takeWhile
  · intro ch next
    obtain ⟨cs, rest⟩ := List.head?_eq_some_iff.mp next
    exact Cursor.refused_of_skipWhile rest

theorem complete_block (here : c.rest = '/' :: '*' :: cs) (closed : closeComment (c.offset + 2) cs = some d) :
    ∃ body, c.Passes (Piece.block body).text d ∧ (Piece.block body).Complete d.rest := by
  obtain ⟨body, inside, first⟩ := closeComment_body closed
  obtain ⟨offset, rest⟩ := c
  obtain rfl := here
  exact ⟨body, inside.cons.cons, first⟩

/-- From one position to another stand complete pieces, up to where a token begins, and what was noted
grows by what they hold. -/
def Gap (seen : Trivia) (c : Cursor) (noted : Trivia) (d : Cursor) : Prop :=
  ∃ ps, Passes c (textOf ps) d ∧ AllComplete d.rest ps ∧ StartsToken d.rest ∧
    Notes seen c.offset ps noted

theorem Gap.nil (starts : StartsToken c.rest) : Gap seen c seen c :=
  ⟨[], .refl c, trivial, starts, by simp, by simp [docsFrom]⟩

theorem Gap.cons {p : Piece} {e : Cursor} {middle : Trivia} (first : Passes c p.text e)
    (complete : p.Complete e.rest) (notes : Notes seen c.offset [p] middle)
    (later : Gap middle e noted d) : Gap seen c noted d := by
  obtain ⟨ps, passes, allComplete, starts, more⟩ := later
  refine ⟨p :: ps, first.trans passes, ⟨?_, allComplete⟩, starts, notes.cons ?_⟩
  · rw [← passes.1]
    exact complete
  · rw [← first.2]
    exact more

/-- What the scanner passes before a token are complete pieces, and it notes what they hold. -/
theorem trivia_gap (read : trivia seen c = .ok (noted, d)) : Gap seen c noted d := by
  fun_induction trivia seen c with
  | case1 seen c tail here ih =>
    obtain ⟨body, passes, complete⟩ := complete_line here
    exact .cons passes complete (notes_line body) (ih read)
  | case2 => cases read
  | case3 seen c cs here e closed ih =>
    obtain ⟨body, passes, complete⟩ := complete_block here closed
    have text := Cursor.upTo_of_passes passes
    have span : e.spanFrom c.offset = ⟨c.offset, c.offset + byteLength (Piece.block body).text⟩ := by
      rw [Cursor.spanFrom, passes.2]
    refine .cons passes complete (notes_block body) ?_
    rw [← span, ← text]
    exact ih read
  | case4 seen c ch tail _ _ here ends ih =>
    have space : isSpace ch = true := by simp [isSpace, Text.isBlank_of_isLineTerminator ends]
    obtain ⟨passes, complete⟩ := complete_blank here space
    exact .cons passes complete (notes_lineEnd ends) (ih read)
  | case5 seen c ch tail _ _ here stays space ih =>
    obtain ⟨passes, complete⟩ := complete_blank here space
    exact .cons passes complete (notes_blank (by simpa using stays)) (ih read)
  | case6 seen c ch tail _ _ here stays space =>
    cases read
    refine .nil ?_
    intro other next
    rw [here] at next
    obtain rfl := Option.some.inj next
    exact ⟨by simpa using space, by simpa using stays⟩
  | case7 seen c nothing =>
    cases read
    exact .nil (by simp [StartsToken, nothing])

/-- From a position on stand complete pieces, up to where a block comment begins. -/
def Unclosed (c : Cursor) : Prop :=
  ∃ ps d, c.Passes (textOf ps) d ∧ AllComplete d.rest ps ∧ ['/', '*'] <+: d.rest

theorem Unclosed.cons {p : Piece} {e : Cursor} (first : c.Passes p.text e) (complete : p.Complete e.rest)
    (later : Unclosed e) : Unclosed c := by
  obtain ⟨ps, d, passes, allComplete, opens⟩ := later
  exact ⟨p :: ps, d, first.trans passes, ⟨passes.1 ▸ complete, allComplete⟩, opens⟩

/-- What the scanner passes before it fails are complete pieces as well. -/
theorem trivia_unclosed {e : SyntaxError} (failed : trivia seen c = .error e) : Unclosed c := by
  fun_induction trivia seen c with
  | case1 seen c tail here ih =>
    obtain ⟨body, passes, complete⟩ := complete_line here
    exact .cons passes complete (ih failed)
  | case2 seen c cs here => exact ⟨[], c, .refl c, trivial, ⟨cs, here.symm⟩⟩
  | case3 seen c cs here d closed ih =>
    obtain ⟨body, passes, complete⟩ := complete_block here closed
    exact .cons passes complete (ih failed)
  | case4 seen c ch tail _ _ here ends ih =>
    have space : isSpace ch = true := by simp [isSpace, Text.isBlank_of_isLineTerminator ends]
    obtain ⟨passes, complete⟩ := complete_blank here space
    exact .cons passes complete (ih failed)
  | case5 seen c ch tail _ _ here stays space ih =>
    obtain ⟨passes, complete⟩ := complete_blank here space
    exact .cons passes complete (ih failed)
  | case6 => cases failed
  | case7 => cases failed

/-- Before a token, the scanner fails only at a comment that is not closed. -/
theorem trivia_lands (seen : Trivia) (c : Cursor) : Lands c c (trivia seen c) := by
  fun_induction trivia seen c with
  | case1 seen c tail here ih =>
    exact ih.from (.refl c) ((Cursor.reaches_skip _ _).trans (Cursor.reaches_skipWhile _ _))
  | case2 seen c cs here unclosed => exact .fail (.here c)
  | case3 seen c cs here e closed ih =>
    obtain ⟨text, passes, _⟩ := closeComment_passes closed
    refine ih.from (.refl c) ?_
    obtain ⟨offset, rest⟩ := c
    obtain rfl := here
    exact ⟨_, passes.cons.cons⟩
  | case4 seen c ch tail _ _ here ends ih => exact ih.from (.refl c) (Cursor.reaches_skip 1 c)
  | case5 seen c ch tail _ _ here stays space ih =>
    exact ih.from (.refl c) (Cursor.reaches_skip 1 c)
  | case6 => exact Reaches.refl _
  | case7 => exact Reaches.refl _

end NameAudit.Scan
