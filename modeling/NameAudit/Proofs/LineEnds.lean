import NameAudit.Proofs.NameTexts
import NameAudit.Proofs.Spellings

/-!
Where lines end inside of tokens and between them. A string never goes on after a line feed that no backslash
hides, and a regular expression after no line terminator at all. A line comment goes on up to a line feed or a
carriage return, so that it holds a line terminator exactly if the first one after it is one of the two separators
(`inLine_iff`).
-/
namespace NameAudit

open Text (isLineTerminator)

namespace Scan

open Piece (AllComplete textOf)

section
variable {quote : Char} {offset : Nat} {cs : List Char} {c d : Cursor} {t : Token}

/-! ### Strings and regular expressions -/

/-- The characters of a string that no backslash hides. A backslash hides one character, and a carriage return
together with the line feed after it. -/
def unhidden : List Char → List Char
  | [] => []
  | '\\' :: '\r' :: '\n' :: cs => unhidden cs
  | '\\' :: _ :: cs => unhidden cs
  | c :: cs => c :: unhidden cs

/-- A string is closed by the first quote that no backslash hides, with no such line feed before it. -/
theorem closeString_unhidden (found : closeString quote offset cs = .ok d) :
    ∃ body, Cursor.Passes ⟨offset, cs⟩ (body ++ [quote]) d ∧ ∀ ch ∈ unhidden body, ch ≠ quote ∧ ch ≠ '\n' := by
  fun_induction closeString quote offset cs with
  | case1 => cases found
  | case2 => cases found
  | case3 offset cs ih =>
    obtain ⟨body, passes, free⟩ := ih found
    refine ⟨'\\' :: '\r' :: '\n' :: body, passes.cons.cons.cons, ?_⟩
    rwa [unhidden]
  | case4 offset e cs other ih =>
    obtain ⟨body, passes, free⟩ := ih found
    refine ⟨'\\' :: e :: body, passes.cons.cons, ?_⟩
    rwa [unhidden]
    rintro tail rfl rfl
    exact other _ rfl passes.1
  | case5 offset cs =>
    cases found
    exact ⟨[], ⟨rfl, rfl⟩, List.forall_mem_nil _⟩
  | case6 => cases found
  | case7 offset c cs alone crlf escaped other line ih =>
    obtain ⟨body, passes, free⟩ := ih found
    have raw := ne_backslash alone escaped
    refine ⟨c :: body, passes.cons, ?_⟩
    rw [unhidden]
    · exact List.forall_mem_cons.mpr ⟨⟨other, line⟩, free⟩
    · intros; contradiction
    · intros; contradiction

theorem closeRegex_inLine {inClass : Bool} (found : closeRegex inClass offset cs = .ok d) :
    ∃ body, Cursor.Passes ⟨offset, cs⟩ body d ∧ ∀ ch ∈ body, isLineTerminator ch = false := by
  fun_induction closeRegex inClass offset cs with
  | case1 => cases found
  | case2 => cases found
  | case3 => cases found
  | case4 inClass offset e cs stays ih =>
    obtain ⟨body, passes, inLine⟩ := ih found
    have both : isLineTerminator '\\' = false ∧ isLineTerminator e = false := ⟨by decide, by simpa using stays⟩
    exact ⟨'\\' :: e :: body, passes.cons.cons,
      List.forall_mem_cons.mpr ⟨both.1, List.forall_mem_cons.mpr ⟨both.2, inLine⟩⟩⟩
  | case5 inClass offset cs _ _ ih =>
    obtain ⟨body, passes, inLine⟩ := ih found
    exact ⟨'[' :: body, passes.cons, List.forall_mem_cons.mpr ⟨by decide, inLine⟩⟩
  | case6 inClass offset cs _ _ _ ih =>
    obtain ⟨body, passes, inLine⟩ := ih found
    exact ⟨']' :: body, passes.cons, List.forall_mem_cons.mpr ⟨by decide, inLine⟩⟩
  | case7 inClass offset c cs _ _ _ _ ends =>
    cases found
    obtain ⟨rfl, rfl⟩ := ends
    exact ⟨['/'], ⟨rfl, rfl⟩, List.forall_mem_singleton.mpr (by decide)⟩
  | case8 => cases found
  | case9 inClass offset c cs _ _ _ _ _ stays ih =>
    obtain ⟨body, passes, inLine⟩ := ih found
    exact ⟨c :: body, passes.cons, List.forall_mem_cons.mpr ⟨by simpa using stays, inLine⟩⟩

/-- No character of a name ends a line. -/
theorem isLineTerminator_of_isIdContinue {ch : Char} (inside : Text.isIdContinue ch = true) :
    isLineTerminator ch = false := by
  refine Bool.eq_false_iff.mpr fun ends => ?_
  rw [Text.isIdContinue_of_isSpace (isSpace_of_isLineTerminator ends)] at inside
  cases inside

theorem regex_inLine {kind : TokenKind} (here : c.rest = '/' :: cs) (found : regex c = .ok (kind, d)) :
    ∃ text, c.Passes text d ∧ ∀ ch ∈ text, isLineTerminator ch = false := by
  unfold regex at found
  cases closed : closeRegex false (c.skip 1).offset (c.skip 1).rest with
  | error stop =>
    simp only [closed] at found
    cases found
  | ok e =>
    simp only [closed] at found
    cases found
    obtain ⟨body, passes, inLine⟩ := closeRegex_inLine closed
    have opens : c.Passes ['/'] (c.skip 1) := Cursor.passes_skip_of_rest ['/'] here
    refine ⟨['/'] ++ (body ++ e.rest.takeWhile Text.isIdContinue),
      opens.trans (passes.trans (Cursor.passes_skipWhile _ e)), ?_⟩
    have slash : isLineTerminator '/' = false := by decide
    have flags : ∀ ch ∈ e.rest.takeWhile Text.isIdContinue, isLineTerminator ch = false :=
      fun ch member => isLineTerminator_of_isIdContinue (List.mem_takeWhile_imp member)
    exact List.forall_mem_append.mpr
      ⟨List.forall_mem_singleton.mpr slash, List.forall_mem_append.mpr ⟨inLine, flags⟩⟩

/-- A string token is a text between quotes of which no line feed is left unhidden. -/
theorem Given.string_unhidden (given : Given t) (kind : t.kind = .string) :
    ∃ quote body, t.text.toList = quote :: (body ++ [quote]) ∧ quote ∈ ['\x22', '\x27'] ∧
      ∀ ch ∈ unhidden body, ch ≠ quote ∧ ch ≠ '\n' := by
  obtain ⟨c, d, found, text⟩ := given.lexeme
  rw [kind] at found
  cases found with
  | @string quote cs here quotes found =>
    unfold string at found
    cases closed : closeString quote (c.offset + quote.utf8Size) cs with
    | error stop =>
      simp only [here, closed] at found
      cases found
    | ok e =>
      simp only [here, closed, Except.ok.injEq, Prod.mk.injEq, true_and] at found
      obtain rfl := found
      obtain ⟨body, passes, free⟩ := closeString_unhidden closed
      have whole : c.Passes (quote :: (body ++ [quote])) e := by
        obtain ⟨offset, rest⟩ := c
        obtain rfl := here
        exact passes.cons
      exact ⟨quote, body, text _ whole, quotes, free⟩

/-- A regular expression stands in one line. -/
theorem Given.regex_inLine (given : Given t) (kind : t.kind = .regex) :
    ∀ ch ∈ t.text.toList, isLineTerminator ch = false := by
  obtain ⟨c, d, found, text⟩ := given.lexeme
  rw [kind] at found
  cases found with
  | regex here found =>
    obtain ⟨passed, passes, inLine⟩ := Scan.regex_inLine here found
    rwa [text _ passes]

end

/-! ### Line comments -/

theorem staysInLine_eq_false_iff {ch : Char} : staysInLine ch = false ↔ ch = '\n' ∨ ch = '\r' := by
  simp [staysInLine, or_iff_not_imp_left]

/-- A line comment holds no line terminator exactly if the first one after it is a line feed or a carriage
return. -/
theorem inLine_iff {body after : List Char} (complete : (Piece.line body).Complete after) :
    (∀ ch ∈ body, isLineTerminator ch = false) ↔
      ∀ ch, (body ++ after).find? isLineTerminator = some ch → ch = '\n' ∨ ch = '\r' := by
  obtain ⟨inLine, stops⟩ := complete
  constructor
  · intro none ch first
    rw [List.find?_append, List.find?_eq_none.mpr (by simpa using none), Option.none_or] at first
    cases after with
    | nil => cases first
    | cons next after =>
      have ends := staysInLine_eq_false_iff.mp (stops next rfl)
      have terminates : isLineTerminator next = true := by rcases ends with rfl | rfl <;> rfl
      rw [List.find?_cons_of_pos terminates] at first
      exact Option.some.inj first ▸ ends
  · intro first
    by_contra some
    obtain ⟨found, held⟩ : ∃ found, body.find? isLineTerminator = Option.some found :=
      Option.isSome_iff_exists.mp (List.find?_isSome.mpr (by simpa using some))
    have early := staysInLine_eq_false_iff.mpr (first found (by rw [List.find?_append, held, Option.some_or]))
    rw [inLine found (List.mem_of_find?_eq_some held)] at early
    cases early

/-- Where the scanner stops between tokens: where a token begins, or at a comment that is never closed. -/
def Stops (r : Except SyntaxError (Trivia × Cursor)) (d : Cursor) : Prop :=
  (∃ noted, r = .ok (noted, d)) ∨ (∃ e, r = .error e) ∧ ['/', '*'] <+: d.rest

theorem trivia_pieces (seen : Trivia) (c : Cursor) :
    ∃ ps d, c.Passes (textOf ps) d ∧ AllComplete d.rest ps ∧ Stops (trivia seen c) d := by
  cases read : trivia seen c with
  | ok answer =>
    obtain ⟨noted, d⟩ := answer
    obtain ⟨ps, passes, complete, -, -⟩ := trivia_gap read
    exact ⟨ps, d, passes, complete, .inl ⟨noted, rfl⟩⟩
  | error e =>
    obtain ⟨ps, d, passes, complete, opens⟩ := trivia_unclosed read
    exact ⟨ps, d, passes, complete, .inr ⟨⟨e, rfl⟩, opens⟩⟩

/-! ### Line ends -/

/-- A call of the scanner gives no string with a line feed that no backslash hides, and no regular expression with
a line terminator. What it passes before the token are blanks and comments, and a line comment holds no line
terminator exactly if the first one after it is a line feed or a carriage return. -/
theorem token_holds_no_line_ends (expecting : Expecting) (c : Cursor) :
    (∀ t d, token expecting c = .ok (t, d) →
      (t.kind = .string → ∃ quote body, t.text.toList = quote :: (body ++ [quote]) ∧ quote ∈ ['\x22', '\x27'] ∧
        ∀ ch ∈ unhidden body, ch ≠ quote ∧ ch ≠ '\n') ∧
      (t.kind = .regex → ∀ ch ∈ t.text.toList, isLineTerminator ch = false)) ∧
    ∃ ps d, c.Passes (textOf ps) d ∧ AllComplete d.rest ps ∧ Stops (trivia {} c) d ∧
      ∀ before body after, ps = before ++ .line body :: after →
        ((∀ ch ∈ body, isLineTerminator ch = false) ↔
          ∀ ch, (body ++ (textOf after ++ d.rest)).find? isLineTerminator = some ch → ch = '\n' ∨ ch = '\r') := by
  constructor
  · intro t d read
    have given : Given t := ⟨expecting, c, d, read⟩
    exact ⟨given.string_unhidden, given.regex_inLine⟩
  · obtain ⟨ps, d, passes, complete, stops⟩ := trivia_pieces {} c
    refine ⟨ps, d, passes, complete, stops, ?_⟩
    rintro before body after rfl
    exact inLine_iff complete.of_append

/-- A string over two lines, by a hidden line feed, and a regular expression. -/
theorem token_holds_no_line_ends_hidden :
    let s : Token := ⟨.string, ⟨0, 6⟩, "\x27a\\\nb\x27", false, none⟩
    let r : Token := ⟨.regex, ⟨0, 3⟩, "/a/", false, none⟩
    token .operand ⟨0, s.text.toList⟩ = .ok (s, ⟨6, []⟩) ∧ token .operand ⟨0, r.text.toList⟩ = .ok (r, ⟨3, []⟩) ∧
      (∃ quote body, s.text.toList = quote :: (body ++ [quote]) ∧ quote ∈ ['\x22', '\x27'] ∧
        ∀ ch ∈ unhidden body, ch ≠ quote ∧ ch ≠ '\n') ∧
      ∀ ch ∈ r.text.toList, isLineTerminator ch = false := by
  intro s r
  have string : token .operand ⟨0, s.text.toList⟩ = .ok (s, ⟨6, []⟩) := by cbv
  have regex : token .operand ⟨0, r.text.toList⟩ = .ok (r, ⟨3, []⟩) := by cbv
  exact ⟨string, regex, ((token_holds_no_line_ends .operand _).1 s _ string).1 rfl,
    ((token_holds_no_line_ends .operand _).1 r _ regex).2 rfl⟩

/-- A string goes on after a carriage return, and a line comment after a line separator. -/
theorem line_ends_passed :
    let s : Token := ⟨.string, ⟨0, 5⟩, "\x27a\rb\x27", false, none⟩
    tokens .operand "\x27a\rb\x27".toList = ⟨[s, ⟨.eof, ⟨5, 5⟩, "", false, none⟩], none, 5⟩ ∧
      '\r' ∈ unhidden "a\rb".toList ∧
      tokens .operand "//\u2028b".toList = ⟨[⟨.eof, ⟨6, 6⟩, "", false, none⟩], none, 6⟩ :=
  ⟨by cbv, by decide, by cbv⟩

end Scan
end NameAudit
