import NameAudit.Proofs.Gaps

/-!
The tokens of a text, read one after the other with any expectations (`Reading`). Each call passes a gap
of blanks and complete comments and then the token, which holds at least a character unless the text is
over (`token_follows`). So the tokens are in order and apart, the calls come to an end after at most as
many tokens as the text has bytes, and a token knows the line breaks and the documentation comments of
the gap before it (`reads_tokens`).
-/
namespace NameAudit.Scan

open Cursor (Passes Reaches Boundary)
open Text (isLineTerminator byteLength)
open Piece (textOf AllComplete docsFrom)

/-! ### One token -/

/-- A token stands between two positions, after a gap of blanks and complete comments. -/
structure Follows (c : Cursor) (ps : List Piece) (start : Cursor) (text : List Char) (t : Token)
    (d : Cursor) : Prop where
  gap : c.Passes (textOf ps) start
  complete : AllComplete start.rest ps
  passes : start.Passes text d
  span : t.span = ⟨start.offset, d.offset⟩
  spelling : t.text = String.ofList text
  /-- The documentation comment is the last one of the gap. -/
  doc : t.doc = (docsFrom c.offset ps).getLast?
  /-- Before a token with characters, a line break is noted if the gap holds a line terminator. -/
  newline : t.kind ≠ .eof → (t.afterNewline = true ↔ ∃ ch ∈ textOf ps, isLineTerminator ch = true)
  some : t.kind ≠ .eof → text ≠ []
  /-- The end of the text has no characters and nothing after it. -/
  ended : t.kind = .eof → text = [] ∧ d.rest = []

section
variable {expecting : Expecting} {c d start : Cursor} {kind : TokenKind} {t : Token}

theorem token_eq_ok_iff :
    token expecting c = .ok (t, d) ↔ ∃ seen start kind, trivia {} c = .ok (seen, start) ∧
      lexeme expecting start = .ok (kind, d) ∧ t = tokenAt kind seen start d := by
  unfold token
  cases trivia {} c with
  | error e => simp
  | ok read =>
    obtain ⟨seen, start⟩ := read
    cases found : lexeme expecting start with
    | error e => simp [found]
    | ok read =>
      obtain ⟨kind, stop⟩ := read
      simp only [found, Except.ok.injEq, Prod.mk.injEq]
      constructor
      · rintro ⟨rfl, rfl⟩
        exact ⟨seen, start, kind, ⟨rfl, rfl⟩, found, rfl⟩
      · rintro ⟨_, _, _, ⟨rfl, rfl⟩, again, rfl⟩
        cases found.symm.trans again
        exact ⟨rfl, rfl⟩

/-- At the end of a text stands its end, which takes no character. -/
theorem lexeme_of_nil (nothing : start.rest = []) : lexeme expecting start = .ok (.eof, start) := by
  simp only [lexeme, nothing]

/-- A lexeme with a character passes it. -/
theorem lexeme_passes {ch : Char} {cs : List Char} (here : start.rest = ch :: cs)
    (found : lexeme expecting start = .ok (kind, d)) : ∃ text, start.Passes (ch :: text) d := by
  have lands := lexeme_lands expecting start
  rw [found] at lands
  obtain ⟨text, passes⟩ := lands
  exact ⟨text, (Cursor.passes_skip_of_rest [ch] here).trans passes⟩

theorem token_follows (read : token expecting c = .ok (t, d)) :
    ∃ ps start text, Follows c ps start text t d := by
  obtain ⟨seen, start, kind, passed, found, rfl⟩ := token_eq_ok_iff.mp read
  obtain ⟨ps, gap, complete, starts, notes⟩ := trivia_gap passed
  have doc : seen.docs.getLast? = (docsFrom c.offset ps).getLast? := by simp [notes.docs]
  cases here : start.rest with
  | nil =>
    obtain ⟨rfl, rfl⟩ : .eof = kind ∧ start = d := by
      simpa using (lexeme_of_nil here).symm.trans found
    exact ⟨ps, start, [], gap, complete, .refl start, rfl,
      congrArg String.ofList (Cursor.upTo_of_passes (.refl start)), doc,
      fun more => (more rfl).elim, fun more => (more rfl).elim, fun _ => ⟨rfl, here⟩⟩
  | cons ch cs =>
    obtain ⟨text, passes⟩ := lexeme_passes here found
    have more := lexeme_kind_ne_eof here found
    have stays : staysInLine ch = true := by
      obtain ⟨-, plain⟩ := starts ch (by rw [here]; rfl)
      simp only [isLineTerminator, Bool.or_eq_false_iff] at plain
      simp only [staysInLine, bne, plain, Bool.not_false, Bool.and_self]
    refine ⟨ps, start, ch :: text, gap, complete, passes, rfl,
      congrArg String.ofList (Cursor.upTo_of_passes passes), doc, fun _ => ?_,
      fun _ => List.cons_ne_nil _ _, fun ended => (more ended).elim⟩
    rw [← Piece.breaksLine_iff complete (by rw [here]; rfl) stays]
    simp [tokenAt, notes.newline]

/-- A call of the scanner ends at a boundary, be it with a token or with an error. -/
theorem token_lands (expecting : Expecting) (c : Cursor) : Lands c c (token expecting c) := by
  have gap := trivia_lands {} c
  unfold token
  cases passed : trivia {} c with
  | error e =>
    rw [passed] at gap
    exact gap
  | ok read =>
    obtain ⟨seen, start⟩ := read
    rw [passed] at gap
    have lands : Lands c c (lexeme expecting start) :=
      ((lexeme_lands expecting start).after (Reaches.trans gap (Cursor.reaches_skip 1 start))).before gap
    cases found : lexeme expecting start with
    | error e =>
      rw [found] at lands
      simp only [found]
      exact lands
    | ok read =>
      rw [found] at lands
      simp only [found]
      exact lands

variable {ps : List Piece} {text : List Char}

theorem Follows.reaches (follows : Follows c ps start text t d) : c.Reaches d :=
  ⟨_, follows.gap.trans follows.passes⟩

/-- A token with characters moves the scanner. -/
theorem Follows.offset_lt (follows : Follows c ps start text t d) (more : t.kind ≠ .eof) :
    t.span.start < t.span.stop := by
  rw [follows.span]
  exact follows.passes.offset_lt (follows.some more)

theorem Follows.length_lt (follows : Follows c ps start text t d) (more : t.kind ≠ .eof) :
    d.rest.length < c.rest.length := by
  have some := List.length_pos_iff.mpr (follows.some more)
  have gap := follows.gap.length
  have passes := follows.passes.length
  omega

end

/-! ### All tokens -/

/-- Tokens read one after the other from the start of a text, none of them the end of it, each with an
expectation of its own, up to a position. -/
inductive Reading (expecting : Nat → Expecting) (source : List Char) : List Token → Cursor → Prop
  | start : Reading expecting source [] (Cursor.ofSource source)
  | next {ts : List Token} {c d : Cursor} {t : Token} (before : Reading expecting source ts c)
    (read : token (expecting ts.length) c = .ok (t, d)) (more : t.kind ≠ .eof) :
    Reading expecting source (ts ++ [t]) d

/-- Tokens with characters stand in order and apart in a text, and the last of them ends at a boundary,
from which the scanner goes on. -/
structure InOrder (source : List Char) (ts : List Token) (c : Cursor) : Prop where
  reached : (Cursor.ofSource source).Reaches c
  stop : (ts.getLast?.map (·.span.stop)).getD 0 = c.offset
  apart : ts.Pairwise fun t u => t.span.stop ≤ u.span.start
  some : ∀ t ∈ ts, t.span.start < t.span.stop ∧ t.span.stop ≤ c.offset
  /-- There are at most as many tokens as bytes. -/
  length_le : ts.length ≤ c.offset

/-- What a call of the scanner answers, from a position in a text. -/
def Answers (source : List Char) (c : Cursor) : Except SyntaxError (Token × Cursor) → Prop
  | .ok (t, d) => (Cursor.ofSource source).Boundary d.offset ∧
      (∃ ps start text, Follows c ps start text t d) ∧
      (t.kind = .eof → t.span = ⟨byteLength source, byteLength source⟩)
  | .error e =>
      (Cursor.ofSource source).Boundary e.span.start ∧ (Cursor.ofSource source).Boundary e.span.stop

/-- A call that is the last one: it gives an error or the end of the text. -/
def IsLast : Except SyntaxError (Token × Cursor) → Prop
  | .ok (t, _) => t.kind = .eof
  | .error _ => True

section
variable {expecting : Nat → Expecting} {source : List Char} {ts : List Token} {c d : Cursor}

theorem Reading.inOrder (reading : Reading expecting source ts c) : InOrder source ts c := by
  induction reading with
  | start => exact ⟨.refl _, rfl, .nil, by simp, Nat.zero_le _⟩
  | @next ts c d t before read more ih =>
    obtain ⟨ps, start, text, follows⟩ := token_follows read
    have long := follows.offset_lt more
    have gap := follows.gap.offset_le
    simp only [follows.span] at long
    refine ⟨ih.reached.trans follows.reaches, by simp [follows.span], ?_, ?_, ?_⟩
    · rw [List.pairwise_append]
      refine ⟨ih.apart, List.pairwise_singleton _ _, fun u earlier v last => ?_⟩
      obtain rfl := List.mem_singleton.mp last
      rw [follows.span]
      exact Nat.le_trans (ih.some u earlier).2 gap
    · intro u member
      rcases List.mem_append.mp member with earlier | last
      · obtain ⟨long', stop⟩ := ih.some u earlier
        exact ⟨long', by omega⟩
      · obtain rfl := List.mem_singleton.mp last
        rw [follows.span]
        exact ⟨long, Nat.le_refl _⟩
    · have length_le := ih.length_le
      simp only [List.length_append, List.length_singleton]
      omega

/-- After each token that was read comes another one or the last call. -/
theorem Reading.ends (ts : List Token) (c : Cursor) (reading : Reading expecting source ts c) :
    ∃ ts d, Reading expecting source ts d ∧ IsLast (token (expecting ts.length) d) := by
  cases call : token (expecting ts.length) c with
  | error e => exact ⟨ts, c, reading, by rw [call]; trivial⟩
  | ok read =>
    obtain ⟨t, d⟩ := read
    by_cases ended : t.kind = .eof
    · exact ⟨ts, c, reading, by rw [call]; exact ended⟩
    · obtain ⟨ps, start, text, follows⟩ := token_follows call
      have := follows.length_lt ended
      exact Reading.ends _ d (reading.next call ended)
termination_by c.rest.length

theorem offset_of_nil (reached : (Cursor.ofSource source).Reaches d) (ended : d.rest = []) :
    d.offset = byteLength source := by
  obtain ⟨passed, rest, offset⟩ := reached
  rw [ended, List.append_nil] at rest
  obtain rfl : source = passed := rest
  simpa [Cursor.ofSource] using offset

/-- Reading tokens with any expectations ends after at most as many tokens as the text has bytes. On the
way they are in order and apart, each call ends at a boundary of the text, and its token follows a gap
of blanks and complete comments whose line breaks and documentation comments it knows. -/
theorem reads_tokens (expecting : Nat → Expecting) (source : List Char) :
    (∃ ts c, Reading expecting source ts c ∧ ts.length ≤ byteLength source ∧
      IsLast (token (expecting ts.length) c)) ∧
    ∀ ts c, Reading expecting source ts c →
      InOrder source ts c ∧ Answers source c (token (expecting ts.length) c) := by
  constructor
  · have begun : Reading expecting source [] (Cursor.ofSource source) := .start
    obtain ⟨ts, c, reading, last⟩ := Reading.ends [] _ begun
    have inOrder := reading.inOrder
    have stops := (Boundary.of_reaches inOrder.reached).le_byteLength
    exact ⟨ts, c, reading, Nat.le_trans inOrder.length_le stops, last⟩
  · intro ts c reading
    have inOrder := reading.inOrder
    refine ⟨inOrder, ?_⟩
    have lands := (token_lands (expecting ts.length) c).from inOrder.reached (.refl c)
    cases call : token (expecting ts.length) c with
    | error e =>
      rw [call] at lands
      exact lands
    | ok read =>
      obtain ⟨t, d⟩ := read
      rw [call] at lands
      have reached := inOrder.reached.trans lands
      refine ⟨.of_reaches reached, token_follows call, fun ended => ?_⟩
      obtain ⟨ps, start, text, follows⟩ := token_follows call
      obtain ⟨rfl, nothing⟩ := follows.ended ended
      have stop := offset_of_nil reached nothing
      have start : start.offset = d.offset := by simpa [byteLength] using follows.passes.2.symm
      rw [follows.span, start, stop]

end

/-- A number after a documentation comment that holds a line break. -/
theorem reads_tokens_of_documented_number :
    ∃ one c, Reading (fun _ => .operator) "1/**\n*/2".toList
        [one, ⟨.number, ⟨7, 8⟩, "2", true, some ⟨⟨1, 7⟩, "/**\n*/"⟩⟩] c ∧
      Answers "1/**\n*/2".toList c (token .operator c) := by
  have first : token .operator (Cursor.ofSource "1/**\n*/2".toList) =
      .ok (⟨.number, ⟨0, 1⟩, "1", false, none⟩, ⟨1, "/**\n*/2".toList⟩) := by
    refine token_eq_ok_iff.mpr ⟨{}, ⟨0, "1/**\n*/2".toList⟩, .number, ?_, rfl, rfl⟩
    rw [trivia]
    rfl
  have second : token .operator ⟨1, "/**\n*/2".toList⟩ =
      .ok (⟨.number, ⟨7, 8⟩, "2", true, some ⟨⟨1, 7⟩, "/**\n*/"⟩⟩, ⟨8, []⟩) := by
    let seen : Trivia := Trivia.addComment {} ⟨1, 7⟩ "/**\n*/".toList
    have comment : trivia {} ⟨1, "/**\n*/2".toList⟩ = trivia seen ⟨7, "2".toList⟩ := by
      rw [trivia]
      rfl
    refine token_eq_ok_iff.mpr ⟨seen, ⟨7, "2".toList⟩, .number, comment.trans ?_, rfl, rfl⟩
    rw [trivia]
    rfl
  have begun : Reading (fun _ => .operator) "1/**\n*/2".toList [] _ := .start
  have one := begun.next first TokenKind.noConfusion
  have reading := one.next second TokenKind.noConfusion
  exact ⟨_, _, reading, ((reads_tokens (fun _ => .operator) _).2 _ _ reading).2⟩

end NameAudit.Scan
