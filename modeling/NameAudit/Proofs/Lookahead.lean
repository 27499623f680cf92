import NameAudit.Parser.State
import NameAudit.Proofs.TokenStream

/-!
The token ahead only saves reading it again. A token is read anew only where it begins with a slash, and
no other token depends on what is expected (`token_expecting`). So a parser that stands at a position
(`ParserState.At`) gives the tokens that the scanner gives there, whatever it has ahead, and each of its
steps does what the same step does on a bare position (`Parser.Reads`). A session of steps is then a
session on positions (`reads_run`), where coming back to a position is to stand there again
(`lookahead_invisible`).
-/
namespace NameAudit

open Cursor (Reaches)

/-! ### What is expected matters only at a slash -/

namespace Punctuator

theorem longer_cases (best : Option Punctuator) (p : Punctuator) :
    longer best p = some p ∨ longer best p = best := by
  cases best with
  | none => exact .inl rfl
  | some q =>
    by_cases shorter : q.text.length < p.text.length
    · exact .inl (if_pos shorter)
    · exact .inr (if_neg shorter)

theorem foldl_longer {p : Punctuator} (ps : List Punctuator) (best : Option Punctuator)
    (chosen : ps.foldl longer best = some p) : best = some p ∨ p ∈ ps := by
  induction ps generalizing best with
  | nil => exact .inl chosen
  | cons q ps ih =>
    rcases ih _ chosen with first | later
    · rcases longer_cases best q with same | same
      · obtain rfl : q = p := Option.some.inj (same.symm.trans first)
        exact .inr List.mem_cons_self
      · exact .inl (same.symm.trans first)
    · exact .inr (List.mem_cons_of_mem _ later)

theorem prefix_of_longest? {p : Punctuator} {cs : List Char} (chosen : longest? cs = some p) :
    p.text.toList <+: cs := by
  rcases foldl_longer _ _ chosen with impossible | member
  · cases impossible
  · exact List.isPrefixOf_iff_prefix.mp (List.mem_filter.mp member).2

/-- The punctuators that begin with a slash. -/
theorem isSlash_of_head {p : Punctuator} (slash : p.text.toList.head? = some '/') :
    (TokenKind.punct p).isSlash = true := by
  revert slash
  cases p <;> decide

end Punctuator

namespace Scan
section
variable {expecting other : Expecting} {c d : Cursor} {cs : List Char} {p : Punctuator}
  {kind : TokenKind} {t : Token}

theorem prefix_of_punctuatorAt? (found : punctuatorAt? cs = some p) : p.text.toList <+: cs := by
  unfold punctuatorAt? at found
  split at found
  next chosen =>
    have whole := Punctuator.prefix_of_longest? chosen
    split at found <;> obtain rfl := Option.some.inj found
    · exact List.IsPrefix.trans (by decide : ['?'] <+: ['?', '.']) whole
    · exact whole
  · exact Punctuator.prefix_of_longest? found

theorem lexeme_slash (here : c.rest = '/' :: cs) (found : lexeme expecting c = .ok (kind, d)) :
    kind.isSlash = true := by
  have letter : (Text.isIdStart '/' || '/' == '\\') = false := by decide
  have hash : ('/' == '#') = false := by decide
  have quote : ('/' == '\x22' || '/' == '\x27') = false := by decide
  simp only [lexeme, here, letter, hash, quote, (by decide : '/'.isDigit = false),
    (by decide : ('/' == '.') = false), (by decide : ('/' == '\x60') = false),
    Bool.false_and, Bool.false_eq_true, if_false, beq_self_eq_true, Bool.true_and] at found
  split at found
  · rw [regex_kind found]
    rfl
  · obtain ⟨p, chosen, rfl, _⟩ := punctuator_eq_ok_iff.mp found
    apply Punctuator.isSlash_of_head
    have begins := prefix_of_punctuatorAt? chosen
    rw [here] at begins
    have some : p.text.toList ≠ [] := by cases p <;> decide
    obtain ⟨ch, text, same⟩ := List.exists_cons_of_ne_nil some
    rw [same] at begins ⊢
    rw [(List.cons_prefix_cons.mp begins).1]
    rfl

theorem lexeme_expecting (found : lexeme expecting c = .ok (kind, d)) (plain : kind.isSlash = false) :
    lexeme other c = .ok (kind, d) := by
  cases here : c.rest with
  | nil =>
    rw [lexeme_of_nil here] at found ⊢
    exact found
  | cons ch cs =>
    have noSlash : (ch == '/') = false := by
      apply Bool.eq_false_iff.mpr
      rintro isSlash
      obtain rfl := beq_iff_eq.mp isSlash
      exact Bool.false_ne_true (plain.symm.trans (lexeme_slash here found))
    simp only [lexeme, here, noSlash, Bool.false_and] at found ⊢
    exact found

/-- What is expected matters only for a token that begins with a slash. -/
theorem token_expecting (read : token expecting c = .ok (t, d)) (plain : t.kind.isSlash = false) :
    token other c = .ok (t, d) := by
  obtain ⟨seen, start, kind, passed, found, rfl⟩ := token_eq_ok_iff.mp read
  exact token_eq_ok_iff.mpr ⟨seen, start, kind, passed, lexeme_expecting found plain, rfl⟩

/-- A token ends where the scanner stands after it. -/
theorem token_stop (read : token expecting c = .ok (t, d)) : t.span.stop = d.offset := by
  obtain ⟨_, _, _, _, _, rfl⟩ := token_eq_ok_iff.mp read
  rfl

theorem token_reaches (read : token expecting c = .ok (t, d)) : c.Reaches d := by
  have lands := token_lands expecting c
  rwa [read] at lands

theorem templateRest_ok (read : templateRest c = .ok (t, d)) :
    c.Reaches d ∧ t.span.stop = d.offset ∧ d.rest.length < c.rest.length := by
  unfold templateRest at read
  split at read
  next here =>
    have lands := template_lands .templateTail .templateMiddle c
    split at read
    · cases read
    next found =>
      cases read
      rw [found] at lands
      have le := Reaches.length_le lands
      rw [Cursor.length_rest_skip] at le
      refine ⟨(Cursor.reaches_skip 1 c).trans lands, rfl, ?_⟩
      rw [here, List.length_cons] at le ⊢
      omega
  · cases read

end
end Scan

/-! ### Standing at a position -/

/-- The parser stands at a position of a source text: it is where the last token taken ends, and the
token ahead, if any, is one that the scanner reads from there. -/
structure ParserState.At (s : ParserState) (source : List Char) (c : Cursor) : Prop where
  text : s.source = source
  position : s.position = c
  reached : (Cursor.ofSource source).Reaches c
  prevEnd : s.prevEnd = c.offset
  ahead : ∀ a, s.ahead = some a → Scan.token a.expecting c = .ok (a.token, s.next)

theorem ParserState.At.cursorAt {s : ParserState} {source : List Char} {c d : Cursor}
    (stands : s.At source c) (reached : (Cursor.ofSource source).Reaches d) :
    s.cursorAt d.offset = d := by
  obtain ⟨passed, passes⟩ := reached
  rw [ParserState.cursorAt, stands.text]
  exact Cursor.seek_of_passes passes

theorem ParserState.at_ofSource (source : List Char) :
    (ofSource source).At source (Cursor.ofSource source) where
  text := rfl
  position := rfl
  reached := .refl _
  prevEnd := rfl
  ahead := by rintro _ ⟨⟩

/-- A position of a source text to come back to, where a token ends. -/
structure Checkpoint.Of (k : Checkpoint) (source : List Char) : Prop where
  reached : (Cursor.ofSource source).Reaches k.next
  prevEnd : k.prevEnd = k.next.offset

/-- Reads from a bare position, with nothing ahead. -/
abbrev Reader := StateT Cursor (Except ParseFailure)

namespace Reader

/-- The token at a position, and the position after it. -/
def scan (expecting : Scan.Expecting) : Reader Token := fun c =>
  (Scan.token expecting c).mapError .malformed

/-- The token at a position. -/
def look (expecting : Scan.Expecting) : Reader Token := fun c =>
  (scan expecting c).map fun (t, _) => (t, c)

/-- Passes a token if it is of this kind. -/
def eat (kind : TokenKind) : Reader Bool := do
  if (← look .operator).kind == kind then
    let _ ← scan .operator
    return true
  else return false

/-- Passes a token, which has to be of this kind. -/
def require (kind : TokenKind) : Reader Token := do
  let t ← look .operator
  if t.kind == kind then scan .operator
  else if t.kind == .eof then throw (.malformed ⟨.unexpectedEnd, t.span, none⟩)
  else throw (.malformed ⟨.missing kind, t.span, some t.kind⟩)

/-- The token after the next one. -/
def peekSecond : Reader Token := fun c => do
  let (_, d) ← scan .operand c
  let (second, _) ← scan .operator d
  return (second, c)

/-- Passes the piece of a template that begins with the next closing brace. -/
def templateRest (source : List Char) : Reader Token := do
  let close ← require (.punct .braceClose)
  fun _ => (Scan.templateRest ((Cursor.ofSource source).seek close.span.start)).mapError .malformed

end Reader

namespace Parser

/-- Wherever a parser stands, it answers or fails as a reader does there, and stands where the reader
ends. -/
def Reads {α : Type} (source : List Char) (p : Parser α) (r : Reader α) : Prop :=
  ∀ s c, s.At source c →
    match r c with
    | .ok (a, d) => ∃ t, p s = .ok (a, t) ∧ t.At source d
    | .error e => p s = .error e

section
variable {α β : Type} {source : List Char} {c d : Cursor} {s : ParserState} {t : Token}
  {expecting : Scan.Expecting}

theorem reads_pure (a : α) : Reads source (pure a) (pure a) :=
  fun s _ stands => ⟨s, rfl, stands⟩

theorem reads_throw (e : ParseFailure) : Reads source (throw e : Parser α) (throw e) :=
  fun _ _ _ => rfl

theorem Reads.bind {p : Parser α} {r : Reader α} {q : α → Parser β} {k : α → Reader β}
    (first : Reads source p r) (next : ∀ a, Reads source (q a) (k a)) :
    Reads source (p >>= q) (r >>= k) := by
  intro s c stands
  have before := first s c stands
  show match Except.bind (r c) fun (a, d) => k a d with
    | .ok (b, d) => ∃ t, Except.bind (p s) (fun (a, t) => q a t) = .ok (b, t) ∧ t.At source d
    | .error e => Except.bind (p s) (fun (a, t) => q a t) = .error e
  cases call : r c with
  | error e =>
    rw [call] at before
    simp only [before, Except.bind]
  | ok answer =>
    obtain ⟨a, d⟩ := answer
    rw [call] at before
    obtain ⟨t, done, stands'⟩ := before
    simp only [done, Except.bind]
    exact next a t d stands'

theorem cached?_cases (stands : s.At source c) (expecting : Scan.Expecting) :
    s.cached? expecting = none ∨
      ∃ a, s.cached? expecting = some a ∧ Scan.token expecting c = .ok (a.token, s.next) := by
  cases found : s.cached? expecting with
  | none => exact .inl rfl
  | some a =>
    obtain ⟨isAhead, serves⟩ := Option.filter_eq_some_iff.mp found
    refine .inr ⟨a, rfl, ?_⟩
    have read := stands.ahead a isAhead
    rcases Bool.or_eq_true_iff.mp serves with same | plain
    · rwa [beq_iff_eq.mp same] at read
    · exact Scan.token_expecting read (by simpa using plain)

theorem bind_apply (p : Parser α) (q : α → Parser β) (s : ParserState) :
    (p >>= q) s = (p s).bind fun x => q x.1 x.2 := rfl

theorem pure_apply (a : α) (s : ParserState) : (pure a : Parser α) s = .ok (a, s) := rfl

theorem get_apply (s : ParserState) : (get : Parser ParserState) s = .ok (s, s) := rfl

theorem set_apply (s t : ParserState) : (set t : Parser PUnit) s = .ok (⟨⟩, t) := rfl

/-- The next token is the one that the scanner reads, and it stays ahead. -/
theorem look_ok (stands : s.At source c) (read : Scan.token expecting c = .ok (t, d)) :
    ∃ s', look expecting s = .ok (t, s') ∧ s'.At source c ∧ s'.next = d := by
  rcases cached?_cases stands expecting with none | ⟨a, some, again⟩
  · refine ⟨{ s with next := d, ahead := some ⟨t, expecting, c⟩ }, ?_, ?_, rfl⟩
    · simp only [look, bind_apply, get_apply, Except.bind, none, stands.position, read, ofExcept,
        pure_apply, set_apply]
    · refine ⟨stands.text, rfl, stands.reached, stands.prevEnd, ?_⟩
      rintro _ ⟨⟩
      exact read
  · obtain ⟨rfl, rfl⟩ : a.token = t ∧ s.next = d := by simpa using again.symm.trans read
    refine ⟨s, ?_, stands, rfl⟩
    simp only [look, bind_apply, get_apply, Except.bind, some, pure_apply]

theorem look_error {e : SyntaxError} (stands : s.At source c)
    (read : Scan.token expecting c = .error e) : look expecting s = .error (.malformed e) := by
  rcases cached?_cases stands expecting with none | ⟨a, _, again⟩
  · simp only [look, bind_apply, get_apply, Except.bind, none, stands.position, read, ofExcept]
    rfl
  · cases again.symm.trans read

theorem reads_look (expecting : Scan.Expecting) :
    Reads source (look expecting) (Reader.look expecting) := by
  intro s c stands
  unfold Reader.look Reader.scan
  cases read : Scan.token expecting c with
  | error e => exact look_error stands read
  | ok answer =>
    obtain ⟨t, d⟩ := answer
    obtain ⟨s', done, stands', _⟩ := look_ok stands read
    exact ⟨s', done, stands'⟩

theorem reads_take (expecting : Scan.Expecting) :
    Reads source (take expecting) (Reader.scan expecting) := by
  intro s c stands
  unfold Reader.scan
  cases read : Scan.token expecting c with
  | error e =>
    simp only [Except.mapError, take, bind, StateT.bind, Except.bind, look_error stands read]
  | ok answer =>
    obtain ⟨t, d⟩ := answer
    obtain ⟨s', done, stands', rfl⟩ := look_ok stands read
    refine ⟨{ s' with ahead := none, prevEnd := t.span.stop }, ?_, stands'.text, rfl,
      stands.reached.trans (Scan.token_reaches read), Scan.token_stop read, ?_⟩
    · simp only [take, bind, StateT.bind, Except.bind, done]
      rfl
    · rintro _ ⟨⟩

theorem reads_failAt (cause : SyntaxError.Cause) (span : Span) (found : Option TokenKind) :
    Reads source (failAt cause span found : Parser α) (throw (.malformed ⟨cause, span, found⟩)) :=
  reads_throw _

theorem reads_eat (kind : TokenKind) : Reads source (eat kind) (Reader.eat kind) := by
  refine (reads_look .operator).bind fun t => ?_
  split
  · exact (reads_take .operator).bind fun _ => reads_pure true
  · exact reads_pure false

theorem reads_require (kind : TokenKind) : Reads source (require kind) (Reader.require kind) := by
  refine (reads_look .operator).bind fun t => ?_
  split
  · exact reads_take .operator
  · split
    · exact reads_failAt _ _ _
    · exact reads_failAt _ _ _

theorem reads_checkpoint :
    Reads source checkpoint fun c => .ok (⟨c, c.offset⟩, c) := by
  intro s c stands
  refine ⟨s, ?_, stands⟩
  rw [← stands.prevEnd, ← stands.position]
  rfl

theorem reads_restore {k : Checkpoint} (kept : k.Of source) :
    Reads source (restore k) fun _ => .ok ((), k.next) :=
  fun s _ stands => ⟨{ s with next := k.next, ahead := none, prevEnd := k.prevEnd }, rfl,
    stands.text, rfl, kept.reached, kept.prevEnd, by rintro _ ⟨⟩⟩

theorem reads_peekSecond : Reads source peekSecond Reader.peekSecond := by
  intro s c stands
  have kept : Checkpoint.Of ⟨c, c.offset⟩ source := ⟨stands.reached, rfl⟩
  obtain ⟨s₀, same, stands₀⟩ := reads_checkpoint s c stands
  have first := (reads_take .operand : Reads source _ _) s₀ c stands₀
  simp only [peekSecond, consumeOperand, peek, bind, StateT.bind, Except.bind, same,
    Reader.peekSecond]
  cases took : Reader.scan .operand c with
  | error e =>
    rw [took] at first
    simp only [first]
  | ok answer =>
    obtain ⟨t, d⟩ := answer
    rw [took] at first
    obtain ⟨s₁, done, stands₁⟩ := first
    have second := (reads_look .operator : Reads source _ _) s₁ d stands₁
    simp only [done]
    unfold Reader.look at second
    cases looked : Reader.scan .operator d with
    | error e =>
      rw [looked] at second
      simp only [Except.map] at second
      simp only [second]
    | ok answer =>
      obtain ⟨u, e⟩ := answer
      rw [looked] at second
      obtain ⟨s₂, done, stands₂⟩ := second
      obtain ⟨s₃, back, stands₃⟩ := reads_restore kept s₂ d stands₂
      simp only [done, back]
      exact ⟨s₃, rfl, stands₃⟩

theorem ahead_take {s' : ParserState} (took : take expecting s = .ok (t, s')) : s'.ahead = none := by
  simp only [take, bind, StateT.bind, Except.bind] at took
  split at took
  · cases took
  · cases took
    rfl

theorem ahead_require {kind : TokenKind} {s' : ParserState} (took : require kind s = .ok (t, s')) :
    s'.ahead = none := by
  simp only [require, bind, StateT.bind, Except.bind] at took
  split at took
  · cases took
  · split at took
    · exact ahead_take took
    · split at took <;> cases took

theorem reads_templateRest : Reads source templateRest (Reader.templateRest source) := by
  intro s c stands
  have first := (reads_require (.punct .braceClose) : Reads source _ _) s c stands
  simp only [templateRest, Reader.templateRest, bind, StateT.bind, Except.bind]
  cases took : Reader.require (.punct .braceClose) c with
  | error e =>
    rw [took] at first
    simp only [first]
  | ok answer =>
    obtain ⟨close, d⟩ := answer
    rw [took] at first
    obtain ⟨s', done, stands'⟩ := first
    have nothing := ahead_require done
    have start := Cursor.reaches_seek (Cursor.ofSource source) close.span.start
    simp only [done, get, getThe, MonadStateOf.get, StateT.get, pure, Except.pure,
      ParserState.cursorAt, stands'.text]
    cases read : Scan.templateRest ((Cursor.ofSource source).seek close.span.start) with
    | error e => rfl
    | ok answer =>
      obtain ⟨t, d⟩ := answer
      obtain ⟨reaches, stop, -⟩ := Scan.templateRest_ok read
      refine ⟨⟨source, d, none, t.span.stop⟩, ?_, rfl, rfl, start.trans reaches, stop, by rintro _ ⟨⟩⟩
      rw [← nothing]
      rfl

end
end Parser

/-! ### Sessions of steps -/

/-- A step of a parser. -/
inductive ParserStep where
  | peek
  | peekOperand
  | consume
  | consumeOperand
  | eat (kind : TokenKind)
  | require (kind : TokenKind)
  | peekSecond
  | templateRest
  | checkpoint
  /-- Comes back to one of the positions kept so far, by its number. -/
  | restore (n : Nat)
  deriving DecidableEq, Repr

namespace ParserStep

/-- What a step answers. -/
inductive Answer where
  | token (t : Token)
  | eaten (b : Bool)
  | place (k : Checkpoint)
  | back
  deriving DecidableEq, Repr

/-- The position that an answer adds to those kept. -/
def Answer.keeps : Answer → List Checkpoint
  | place k => [k]
  | _ => []

/-- Makes a step, with the positions kept so far. -/
def run (kept : List Checkpoint) : ParserStep → Parser Answer
  | peek => do return .token (← Parser.peek)
  | peekOperand => do return .token (← Parser.peekOperand)
  | consume => do return .token (← Parser.consume)
  | consumeOperand => do return .token (← Parser.consumeOperand)
  | eat kind => do return .eaten (← Parser.eat kind)
  | require kind => do return .token (← Parser.require kind)
  | peekSecond => do return .token (← Parser.peekSecond)
  | templateRest => do return .token (← Parser.templateRest)
  | checkpoint => do return .place (← Parser.checkpoint)
  | restore n => do
    kept[n]?.elim (pure ()) Parser.restore
    return .back

/-- Makes a step on a bare position. -/
def read (source : List Char) (kept : List Checkpoint) : ParserStep → Reader Answer
  | peek => do return .token (← Reader.look .operator)
  | peekOperand => do return .token (← Reader.look .operand)
  | consume => do return .token (← Reader.scan .operator)
  | consumeOperand => do return .token (← Reader.scan .operand)
  | eat kind => do return .eaten (← Reader.eat kind)
  | require kind => do return .token (← Reader.require kind)
  | peekSecond => do return .token (← Reader.peekSecond)
  | templateRest => do return .token (← Reader.templateRest source)
  | checkpoint => fun c => .ok (.place ⟨c, c.offset⟩, c)
  | restore n => do
    kept[n]?.elim (pure ()) fun k => set k.next
    return .back

end ParserStep

/-- A parser together with the positions kept to come back to. -/
structure Session where
  state : ParserState
  kept : List Checkpoint

namespace Session

open ParserStep (Answer)

/-- The session before the first step. -/
def start (source : List Char) : Session := ⟨.ofSource source, []⟩

/-- Makes steps one after the other. -/
def run : List ParserStep → Session → Except ParseFailure (List Answer × Session)
  | [], s => .ok ([], s)
  | step :: steps, s => do
    let (a, state) ← step.run s.kept s.state
    let (answers, t) ← run steps ⟨state, s.kept ++ a.keeps⟩
    return (a :: answers, t)

/-- Makes steps one after the other on a bare position. -/
def read (source : List Char) :
    List ParserStep → List Checkpoint → Cursor → Except ParseFailure (List Answer × List Checkpoint × Cursor)
  | [], kept, c => .ok ([], kept, c)
  | step :: steps, kept, c => do
    let (a, d) ← step.read source kept c
    let (answers, later) ← read source steps (kept ++ a.keeps) d
    return (a :: answers, later)

/-- A session stands at a position, and every position it keeps can be restored. -/
structure At (s : Session) (source : List Char) (c : Cursor) : Prop where
  state : s.state.At source c
  kept : ∀ k ∈ s.kept, k.Of source

section
variable {source : List Char} {c d : Cursor} {kept : List Checkpoint} {s t : Session}
  {steps later : List ParserStep} {answers : List Answer}

theorem at_start (source : List Char) : (start source).At source (Cursor.ofSource source) :=
  ⟨ParserState.at_ofSource source, by rintro k ⟨⟩⟩

/-- Each step does what the same step does on the bare position. -/
theorem reads_step (allKept : ∀ k ∈ kept, k.Of source) (step : ParserStep) :
    Parser.Reads source (step.run kept) (step.read source kept) := by
  cases step with
  | peek => exact (Parser.reads_look _).bind fun _ => Parser.reads_pure _
  | peekOperand => exact (Parser.reads_look _).bind fun _ => Parser.reads_pure _
  | consume => exact (Parser.reads_take _).bind fun _ => Parser.reads_pure _
  | consumeOperand => exact (Parser.reads_take _).bind fun _ => Parser.reads_pure _
  | eat kind => exact (Parser.reads_eat kind).bind fun _ => Parser.reads_pure _
  | require kind => exact (Parser.reads_require kind).bind fun _ => Parser.reads_pure _
  | peekSecond => exact Parser.reads_peekSecond.bind fun _ => Parser.reads_pure _
  | templateRest => exact Parser.reads_templateRest.bind fun _ => Parser.reads_pure _
  | checkpoint => exact Parser.reads_checkpoint.bind fun _ => Parser.reads_pure _
  | restore n =>
    have back : Parser.Reads source (kept[n]?.elim (pure ()) Parser.restore)
        (kept[n]?.elim (pure ()) fun k => set k.next) := by
      cases found : kept[n]? with
      | none => exact Parser.reads_pure ()
      | some k => exact Parser.reads_restore (allKept k (List.mem_of_getElem? found))
    exact back.bind fun _ => Parser.reads_pure _

/-- A position that a step adds to those kept is the one where it was made. -/
theorem keeps_of_read {step : ParserStep} {a : Answer} (reached : (Cursor.ofSource source).Reaches c)
    (read : step.read source kept c = .ok (a, d)) : ∀ k ∈ a.keeps, k.Of source := by
  cases step with
  | checkpoint =>
    cases read
    rintro k member
    obtain rfl := List.mem_singleton.mp member
    exact ⟨reached, rfl⟩
  | _ =>
    simp only [ParserStep.read, bind, StateT.bind, Except.bind] at read
    split at read
    · cases read
    · cases read
      rintro k ⟨⟩

/-- A session of steps does what the same steps do on the bare position. -/
theorem reads_run (stands : s.At source c) (steps : List ParserStep) :
    match read source steps s.kept c with
    | .ok (answers, kept, d) => ∃ t, s.run steps = .ok (answers, t) ∧ t.kept = kept ∧ t.At source d
    | .error e => s.run steps = .error e := by
  induction steps generalizing s c with
  | nil => exact ⟨s, rfl, rfl, stands⟩
  | cons step steps ih =>
    have first := reads_step stands.kept step s.state c stands.state
    simp only [read, run, bind, Except.bind]
    cases done : step.read source s.kept c with
    | error e =>
      rw [done] at first
      simp only [first]
    | ok answer =>
      obtain ⟨a, d⟩ := answer
      rw [done] at first
      obtain ⟨state, ran, stands'⟩ := first
      have all : ∀ k ∈ s.kept ++ a.keeps, k.Of source := fun k member =>
        (List.mem_append.mp member).elim (stands.kept k) (keeps_of_read stands.state.reached done k)
      have rest := ih (s := ⟨state, s.kept ++ a.keeps⟩) ⟨stands', all⟩
      simp only [ran]
      cases going : read source steps (s.kept ++ a.keeps) d with
      | error e =>
        rw [going] at rest
        simp only [rest]
      | ok answer =>
        obtain ⟨answers, kept, e⟩ := answer
        rw [going] at rest
        obtain ⟨t, ran, same, stands''⟩ := rest
        simp only [ran]
        exact ⟨t, rfl, same, stands''⟩

/-- Wherever a session stands, the answers depend only on the position and the positions kept. -/
theorem answers_run (stands : s.At source c) (steps : List ParserStep) :
    (s.run steps).map (·.1) = (read source steps s.kept c).map (·.1) := by
  have whole := reads_run stands steps
  cases call : read source steps s.kept c with
  | error e =>
    rw [call] at whole
    rw [whole]
    rfl
  | ok answer =>
    obtain ⟨answers, kept, d⟩ := answer
    rw [call] at whole
    obtain ⟨t, ran, _⟩ := whole
    rw [ran]
    rfl

theorem At.run (stands : s.At source c) (ran : s.run steps = .ok (answers, t)) :
    ∃ d, read source steps s.kept c = .ok (answers, t.kept, d) ∧ t.At source d := by
  have whole := reads_run stands steps
  cases call : read source steps s.kept c with
  | error e =>
    rw [call, ran] at whole
    cases whole
  | ok answer =>
    obtain ⟨answers', kept, d⟩ := answer
    rw [call] at whole
    obtain ⟨t', ran', rfl, stands'⟩ := whole
    obtain ⟨rfl, rfl⟩ : answers = answers' ∧ t = t' := by simpa using ran.symm.trans ran'
    exact ⟨d, rfl, stands'⟩

theorem read_cons {step : ParserStep} {kept' : List Checkpoint} {e : Cursor} :
    read source (step :: steps) kept c = .ok (answers, kept', e) ↔
      ∃ a d later, step.read source kept c = .ok (a, d) ∧
        read source steps (kept ++ a.keeps) d = .ok (later, kept', e) ∧ answers = a :: later := by
  simp only [read, bind, Except.bind]
  cases first : step.read source kept c with
  | error e => simp
  | ok answer =>
    obtain ⟨a, d⟩ := answer
    cases rest : read source steps (kept ++ a.keeps) d with
    | error e => simp [rest]
    | ok answer =>
      obtain ⟨later, kept'', e'⟩ := answer
      simp only [rest, pure, Except.pure, Except.ok.injEq, Prod.mk.injEq]
      constructor
      · rintro ⟨rfl, rfl, rfl⟩
        exact ⟨a, d, later, ⟨rfl, rfl⟩, rest, rfl⟩
      · rintro ⟨_, _, _, ⟨rfl, rfl⟩, again, rfl⟩
        obtain ⟨rfl, rfl, rfl⟩ : later = _ ∧ kept'' = kept' ∧ e' = e := by
          simpa using rest.symm.trans again
        exact ⟨rfl, rfl, rfl⟩

/-- Positions are kept for good. -/
theorem kept_of_read {kept' : List Checkpoint}
    (done : read source steps kept c = .ok (answers, kept', d)) : kept <+: kept' := by
  induction steps generalizing kept c answers with
  | nil =>
    cases done
    exact List.prefix_refl _
  | cons step steps ih =>
    obtain ⟨a, d, later, -, rest, -⟩ := read_cons.mp done
    exact (List.prefix_append _ _).trans (ih rest)

/-- The answers after coming back are those at the position that was kept. -/
theorem answers_restore {k : Checkpoint} {n : Nat} (stands : s.At source c) (found : s.kept[n]? = some k)
    (steps : List ParserStep) :
    (s.run (.restore n :: steps)).map (·.1) =
      ((read source steps s.kept k.next).map (·.1)).map (.back :: ·) := by
  rw [answers_run stands]
  have back : ParserStep.read source s.kept (.restore n) c = .ok (.back, k.next) := by
    simp only [ParserStep.read, found]
    rfl
  simp only [read, back, bind, Except.bind, Answer.keeps, List.append_nil]
  cases read source steps s.kept k.next <;> rfl

/-- The second token is looked at without a move. -/
theorem read_peekSecond {a : Answer} (looked : ParserStep.read source kept .peekSecond c = .ok (a, d)) :
    d = c ∧ a.keeps = [] := by
  simp only [ParserStep.read, Reader.peekSecond, bind, StateT.bind, Except.bind] at looked
  split at looked
  · cases looked
  next seen =>
    split at seen
    · cases seen
    · split at seen
      · cases seen
      · cases seen
        cases looked
        exact ⟨rfl, rfl⟩

end

end Session
end NameAudit
