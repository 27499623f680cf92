import NameAudit.SyntaxError
import NameAudit.Text.Cursor

/-!
What stands between tokens: blanks, line breaks and comments.
-/
namespace NameAudit.Scan

/-- The answer of a scan that fails on the bytes from `start` to `stop`. -/
def fail {α : Type} (cause : SyntaxError.Cause) (start stop : Nat) : Except SyntaxError α :=
  .error ⟨cause, ⟨start, stop⟩, none⟩

/-- What was seen between two tokens. -/
structure Trivia where
  /-- A line break, be it inside a block comment. -/
  newline : Bool := false
  /-- The documentation comments, in order. -/
  docs : List DocComment := []
  deriving DecidableEq, Inhabited, Repr

/-- Blanks between tokens: the Unicode blanks and the byte order mark. -/
def isSpace (c : Char) : Bool := Text.isBlank c || c == '\ufeff'

/-- A line comment runs up to a line feed or a carriage return. -/
def staysInLine (c : Char) : Bool := c != '\n' && c != '\r'

/-- The position after the first end of a block comment. -/
def closeComment (offset : Nat) : List Char → Option Cursor
  | [] => none
  | '*' :: '/' :: cs => some ⟨offset + 2, cs⟩
  | c :: cs => closeComment (offset + c.utf8Size) cs

/-- A block comment documents what follows it when it opens with two stars and is not `/**/`. -/
def isDoc (text : List Char) : Bool :=
  ['/', '*', '*'].isPrefixOf text && text != ['/', '*', '*', '/']

/-- Notes a block comment. -/
def Trivia.addComment (t : Trivia) (span : Span) (text : List Char) : Trivia where
  newline := t.newline || text.any Text.isLineTerminator
  docs := if isDoc text then t.docs ++ [⟨span, String.ofList text⟩] else t.docs

theorem closeComment_rest_lt {offset : Nat} {cs : List Char} {d : Cursor}
    (h : closeComment offset cs = some d) : d.rest.length < cs.length := by
  fun_induction closeComment offset cs with
  | case1 => simp at h
  | case2 => cases h; simp only [List.length_cons]; omega
  | case3 offset c cs _ ih => simp only [List.length_cons]; exact Nat.lt_succ_of_lt (ih h)

/-- Passes everything up to the next token, adding to what was seen before.  A block comment that
is not closed is an error at its start. -/
def trivia (seen : Trivia) (c : Cursor) : Except SyntaxError (Trivia × Cursor) :=
  match _hc : c.rest with
  | '/' :: '/' :: _ => trivia seen ((c.skip 2).skipWhile staysInLine)
  | '/' :: '*' :: cs =>
    match _hd : closeComment (c.offset + 2) cs with
    | none => fail (.unterminated "comment") c.offset c.offset
    | some d => trivia (seen.addComment (d.spanFrom c.offset) (c.upTo d.offset)) d
  | ch :: _ =>
    if Text.isLineTerminator ch then trivia { seen with newline := true } (c.skip 1)
    else if isSpace ch then trivia seen (c.skip 1)
    else .ok (seen, c)
  | [] => .ok (seen, c)
termination_by c.rest.length
decreasing_by
  · have h := Cursor.length_rest_skipWhile_le staysInLine (c.skip 2)
    rw [Cursor.length_rest_skip, _hc] at h
    simp only [List.length_cons, _hc] at h ⊢
    omega
  · have h := closeComment_rest_lt _hd
    simp only [_hc, List.length_cons]
    omega
  · rw [Cursor.length_rest_skip]; simp [_hc]
  · rw [Cursor.length_rest_skip]; simp [_hc]

/-- The documentation comments before the first token of a source text. -/
def leadingDocs (source : List Char) : Except SyntaxError (List DocComment) :=
  (trivia {} (Cursor.ofSource source)).map (·.1.docs)

end NameAudit.Scan
