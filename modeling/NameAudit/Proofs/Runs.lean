import NameAudit.Parser.Grammar
import NameAudit.Proofs.Failures
import Mathlib.Logic.Relation

/-!
What a parser does from a position, told at once for a text and for a longer one (`Parser.Runs`): it fails
only as it can, and never for lack of depth, and where it succeeds, it ends at a later position with an
answer of a certain kind, and a second parser gives the same answer on the longer text, as long as the last
parenthesis of the text is still to come (`Continued.Awaits`). The rules for the steps of a parser, for sequences of
steps and for loops are all that the grammar needs.
-/
namespace NameAudit

open Cursor (Passes Reaches Closed extend)
open Relation (ReflTransGen)

/-! ### Ways through a text -/

namespace Scan

/-- A parser that stands at a position can go to another one by taking a token, or the piece of a
template that begins with the next token, a closing brace. -/
inductive Takes (c d : Cursor) : Prop where
  | token (expecting : Expecting) (t : Token) (read : Scan.token expecting c = .ok (t, d))
  | piece (close : Token) (after brace : Cursor) (t : Token)
    (read : Scan.token .operator c = .ok (close, after)) (kind : close.kind = .punct .braceClose)
    (reaches : c.Reaches brace) (opens : brace.offset = close.span.start)
    (rest : Scan.templateRest brace = .ok (t, d))

section
variable {expecting other : Expecting} {c d e : Cursor} {t u : Token}

theorem Takes.reaches (takes : Takes c d) : c.Reaches d := by
  cases takes with
  | token expecting t read => exact token_reaches read
  | piece close after brace t read kind reaches opens rest => exact reaches.trans (templateRest_ok rest).1

theorem reaches_of_takes (way : ReflTransGen Takes c d) : c.Reaches d := by
  induction way with
  | refl => exact .refl c
  | tail _ takes ih => exact ih.trans takes.reaches

/-- A token that is not the end of the text takes a character. -/
theorem token_length_lt (read : token expecting c = .ok (t, d)) (more : t.kind ≠ .eof) :
    d.rest.length < c.rest.length := by
  obtain ⟨_, _, _, follows⟩ := token_follows read
  exact follows.length_lt more

theorem punct_length_lt {sign : Punctuator} (read : token expecting c = .ok (t, d))
    (kind : t.kind = .punct sign) : d.rest.length < c.rest.length :=
  token_length_lt read (by rw [kind]; rintro ⟨⟩)

theorem identifier_length_lt (read : token expecting c = .ok (t, d)) (kind : t.kind = .identifier) :
    d.rest.length < c.rest.length :=
  token_length_lt read (by rw [kind]; rintro ⟨⟩)

/-- Nothing follows the end of the text. -/
theorem rest_of_eof (read : token expecting c = .ok (t, d)) (ended : t.kind = .eof) : d.rest = [] := by
  obtain ⟨_, _, _, follows⟩ := token_follows read
  exact (follows.ended ended).2

/-- The text ends for every expectation alike. -/
theorem eof_of_eof (read : token expecting c = .ok (t, d)) (again : token other c = .ok (u, e))
    (ended : t.kind = .eof) : u.kind = .eof := by
  rw [token_expecting read (by rw [ended]; rfl)] at again
  obtain ⟨rfl, -⟩ : t = u ∧ d = e := by simpa using again
  exact ended

/-- A token that no expectation changes. -/
theorem token_unique (read : token expecting c = .ok (t, d)) (plain : t.kind.isSlash = false)
    (again : token other c = .ok (u, e)) : t = u ∧ d = e := by
  rw [token_expecting read plain] at again
  simpa using again

/-- No token but the end is left where nothing is left. -/
theorem eof_of_nil (nothing : c.rest = []) (read : token expecting c = .ok (t, d)) : t.kind = .eof := by
  by_contra more
  have := token_length_lt read more
  rw [nothing] at this
  exact absurd this (Nat.not_lt_zero _)

end
end Scan

/-! ### A text and a longer one -/

/-- A source text and what follows it in a longer one: nothing, or anything after a closing
parenthesis. -/
structure Continued where
  source : List Char
  more : List Char
  closed : more = [] ∨ (Cursor.ofSource source).Closed

namespace Continued

/-- The longer text. -/
def longer (w : Continued) : List Char := w.source ++ w.more

/-- A text without more. -/
def alone (source : List Char) : Continued := ⟨source, [], .inl rfl⟩

/-- The last parenthesis of the text, after which it goes on, is still to come as a token. -/
def Awaits (w : Continued) (c : Cursor) : Prop :=
  w.more = [] ∨ ∃ last stop expecting t, ReflTransGen Scan.Takes c last ∧
    Scan.token expecting last = .ok (t, stop) ∧ t.kind = .punct .parenClose ∧ stop.rest = []

section
variable {w : Continued} {c d e : Cursor} {expecting : Scan.Expecting} {t : Token}

theorem Awaits.before (awaits : w.Awaits d) (way : ReflTransGen Scan.Takes c d) : w.Awaits c := by
  rcases awaits with nothing | ⟨last, stop, expecting, t, further, paren⟩
  · exact .inl nothing
  · exact .inr ⟨last, stop, expecting, t, way.trans further, paren⟩

/-- The text is not over before its last parenthesis. -/
theorem Awaits.not_over (awaits : w.Awaits c) (some : w.more ≠ [])
    (read : Scan.token expecting c = .ok (t, d)) : t.kind ≠ .eof := by
  intro ended
  obtain ⟨last, stop, other, paren, way, final, kind, -⟩ := awaits.resolve_left some
  rcases ReflTransGen.cases_head way with rfl | ⟨next, takes, way⟩
  · have := Scan.eof_of_eof read final ended
    rw [kind] at this
    cases this
  · cases takes with
    | token expecting' u again =>
      have nothing := Scan.rest_of_eof again (Scan.eof_of_eof read again ended)
      have left := (Scan.reaches_of_takes way).length_le
      rw [nothing, List.length_nil, Nat.le_zero, List.length_eq_zero_iff] at left
      have := Scan.eof_of_nil left final
      rw [kind] at this
      cases this
    | piece close after brace u again brace' =>
      have := Scan.eof_of_eof read again ended
      rw [brace'] at this
      cases this

/-- A token before the last parenthesis stands in the longer text. -/
theorem token_longer (awaits : w.Awaits c) (reached : (Cursor.ofSource w.source).Reaches c)
    (read : Scan.token expecting c = .ok (t, d)) :
    Scan.token expecting (c.extend w.more) = .ok (t, d.extend w.more) := by
  by_cases nothing : w.more = []
  · simpa [extend, nothing] using read
  · have more := awaits.not_over nothing read
    have some : c.rest ≠ [] := by
      intro ended
      exact more (Scan.eof_of_nil ended read)
    exact Scan.token_extend ((w.closed.resolve_left nothing).after reached some) read more

/-- A name is not the last parenthesis. -/
theorem Awaits.after_identifier (awaits : w.Awaits c) (read : Scan.token expecting c = .ok (t, d))
    (name : t.kind = .identifier) : w.Awaits d := by
  rcases awaits with nothing | ⟨last, stop, other, paren, way, final, kind, ended⟩
  · exact .inl nothing
  have plain : t.kind.isSlash = false := by
    rw [name]
    rfl
  rcases ReflTransGen.cases_head way with rfl | ⟨next, takes, way⟩
  · obtain ⟨rfl, -⟩ := Scan.token_unique read plain final
    rw [name] at kind
    cases kind
  · cases takes with
    | token expecting' u again =>
      obtain ⟨-, rfl⟩ := Scan.token_unique read plain again
      exact .inr ⟨last, stop, other, paren, way, final, kind, ended⟩
    | piece close after brace u again brace' =>
      obtain ⟨rfl, -⟩ := Scan.token_unique read plain again
      rw [name] at brace'
      cases brace'

theorem reached_longer (w : Continued) (reached : (Cursor.ofSource w.source).Reaches c) :
    (Cursor.ofSource w.longer).Reaches (c.extend w.more) :=
  reached.extend w.more

end
end Continued

namespace Parser

/-- From a position, a parser fails only as it can (`ParseFailure.Arises`), and never for lack of depth. Where
it succeeds, it ends at a later position with an answer of a certain kind, and a second parser gives the same
answer on the longer text if the last parenthesis of the text is still to come. -/
def Runs {α : Type} (w : Continued) (c : Cursor) (p p' : Parser α) (Q : α → Cursor → Prop) : Prop :=
  ∀ s s', s.At w.source c → s'.At w.longer (c.extend w.more) →
    match p s with
    | .ok (a, t) => ∃ d, t.At w.source d ∧ ReflTransGen Scan.Takes c d ∧ Q a d ∧
        (w.Awaits d → ∃ t', p' s' = .ok (a, t') ∧ t'.At w.longer (d.extend w.more))
    | .error e => e.Arises

section
variable {α β σ : Type} {w : Continued} {c d : Cursor} {p p' : Parser α} {Q : α → Cursor → Prop}
  {R : β → Cursor → Prop}

theorem runs_pure {a : α} (holds : Q a c) : Runs w c (pure a) (pure a) Q :=
  fun _ s' stands stands' => ⟨c, stands, .refl, holds, fun _ => ⟨s', rfl, stands'⟩⟩

/-- There is a parser at every position of the longer text. -/
theorem exists_at (w : Continued) (reached : (Cursor.ofSource w.source).Reaches d) :
    ∃ s : ParserState, s.At w.longer (d.extend w.more) :=
  ⟨⟨w.longer, d.extend w.more, none, d.offset⟩, rfl, rfl, w.reached_longer reached, rfl, by rintro _ ⟨⟩⟩

theorem Runs.bind {k k' : α → Parser β} (first : Runs w c p p' Q)
    (next : ∀ a d, d.rest.length ≤ c.rest.length → Q a d → Runs w d (k a) (k' a) R) :
    Runs w c (p >>= k) (p' >>= k') R := by
  intro s s' stands stands'
  have before := first s s' stands stands'
  show match Except.bind (p s) fun (a, t) => k a t with
    | .ok (b, t) => ∃ d, t.At w.source d ∧ ReflTransGen Scan.Takes c d ∧ R b d ∧
        (w.Awaits d → ∃ t', Except.bind (p' s') (fun (a, t) => k' a t) = .ok (b, t') ∧
          t'.At w.longer (d.extend w.more))
    | .error e => e.Arises
  cases call : p s with
  | error e =>
    rw [call] at before
    exact before
  | ok answer =>
    obtain ⟨a, t⟩ := answer
    rw [call] at before
    obtain ⟨d, there, way, holds, follow⟩ := before
    have le := (Scan.reaches_of_takes way).length_le
    simp only [Except.bind]
    -- The second parser is run even where it is not known to follow, for the way it goes.
    obtain ⟨u, standing⟩ := exists_at w there.reached
    have onward := next a d le holds t u there standing
    cases call' : k a t with
    | error e =>
      rw [call'] at onward
      exact onward
    | ok answer =>
      obtain ⟨b, t₂⟩ := answer
      rw [call'] at onward
      obtain ⟨e, there', way', holds', -⟩ := onward
      refine ⟨e, there', way.trans way', holds', fun awaits => ?_⟩
      obtain ⟨t', same, standing'⟩ := follow (awaits.before way')
      have again := next a d le holds t t' there standing'
      rw [call'] at again
      obtain ⟨e', there'', -, -, follow'⟩ := again
      obtain rfl : e' = e := there''.position.symm.trans there'.position
      simp only [same]
      exact follow' awaits

theorem Runs.mono {Q' : α → Cursor → Prop} (runs : Runs w c p p' Q)
    (weaker : ∀ a d, d.rest.length ≤ c.rest.length → Q a d → Q' a d) : Runs w c p p' Q' := by
  intro s s' stands stands'
  have before := runs s s' stands stands'
  cases call : p s with
  | error e =>
    rw [call] at before
    exact before
  | ok answer =>
    obtain ⟨a, t⟩ := answer
    rw [call] at before
    obtain ⟨d, there, way, holds, follow⟩ := before
    exact ⟨d, there, way, weaker a d (Scan.reaches_of_takes way).length_le holds, follow⟩

/-- A choice whose branches go on alike. -/
theorem Runs.join {b : Prop} [Decidable b] {q q' : Parser α} {k k' : α → Parser β}
    (yes : b → Runs w c p p' Q) (no : ¬b → Runs w c q q' Q)
    (next : ∀ a d, d.rest.length ≤ c.rest.length → Q a d → Runs w d (k a) (k' a) R) :
    Runs w c (if b then p >>= k else q >>= k) (if b then p' >>= k' else q' >>= k') R := by
  split
  next holds => exact (yes holds).bind next
  next fails => exact (no fails).bind next

theorem runs_failWith {e : SyntaxError} (arises : (ParseFailure.malformed e).Arises) :
    Runs w c (failWith e) p' Q :=
  fun _ _ _ _ => arises

theorem runs_failAt {cause : SyntaxError.Cause} {span : Span} {found : Option TokenKind}
    (other : cause ≠ .invalidEscape := by rintro ⟨⟩) : Runs w c (failAt cause span found) p' Q :=
  runs_failWith fun same => (other same).elim

theorem runs_unexpected {t : Token} {what : String} : Runs w c (unexpected t what) p' Q := by
  unfold unexpected
  split
  · exact runs_failAt
  · exact runs_failAt

theorem runs_ofExcept {x : Except SyntaxError α} (refuses : Refuses x) (holds : ∀ a, x = .ok a → Q a c) :
    Runs w c (ofExcept x) (ofExcept x) Q := by
  cases x with
  | error e => exact runs_failWith (refuses.arises rfl)
  | ok a => exact runs_pure (holds a rfl)

/-- A parser that does what a reader does, which reads on alike in the longer text. -/
theorem runs_of_reads {r r' : Reader α} (here : Reads w.source p r) (there : Reads w.longer p' r')
    (fails : ∀ e, r c = .error e → e.Arises)
    (onward : (Cursor.ofSource w.source).Reaches c → ∀ a d, r c = .ok (a, d) →
      ReflTransGen Scan.Takes c d ∧ Q a d ∧
        (w.Awaits d → r' (c.extend w.more) = .ok (a, d.extend w.more))) : Runs w c p p' Q := by
  intro s s' stands stands'
  have first := here s c stands
  have second := there s' _ stands'
  cases call : r c with
  | error e =>
    rw [call] at first
    rw [first]
    exact fails e call
  | ok answer =>
    obtain ⟨a, d⟩ := answer
    rw [call] at first
    obtain ⟨t, done, standing⟩ := first
    obtain ⟨way, holds, follow⟩ := onward stands.reached a d call
    rw [done]
    refine ⟨d, standing, way, holds, fun awaits => ?_⟩
    rw [follow awaits] at second
    exact second

theorem scan_arises (expecting : Scan.Expecting) (c : Cursor) :
    ∀ e, Reader.scan expecting c = .error e → e.Arises := by
  unfold Reader.scan
  cases read : Scan.token expecting c with
  | error e =>
    rintro _ ⟨⟩
    exact (Scan.token_unnamed expecting c).arises read
  | ok answer => rintro _ ⟨⟩

theorem scan_eq_ok_iff {expecting : Scan.Expecting} {t : Token} :
    Reader.scan expecting c = .ok (t, d) ↔ Scan.token expecting c = .ok (t, d) := by
  unfold Reader.scan
  cases Scan.token expecting c with
  | error e => simp [Except.mapError]
  | ok answer => simp [Except.mapError]

theorem runs_take (expecting : Scan.Expecting) :
    Runs w c (take expecting) (take expecting) fun t d => Scan.token expecting c = .ok (t, d) := by
  refine runs_of_reads (reads_take expecting) (reads_take expecting) (scan_arises _ _) ?_
  intro reached t d read
  have read := scan_eq_ok_iff.mp read
  have way : ReflTransGen Scan.Takes c d := .single (.token expecting t read)
  exact ⟨way, read, fun awaits =>
    scan_eq_ok_iff.mpr (Continued.token_longer (awaits.before way) reached read)⟩

theorem look_eq_ok_iff {expecting : Scan.Expecting} {t : Token} :
    Reader.look expecting c = .ok (t, d) ↔ d = c ∧ ∃ e, Scan.token expecting c = .ok (t, e) := by
  unfold Reader.look Reader.scan
  cases Scan.token expecting c with
  | error e => simp [Except.mapError, Except.map]
  | ok answer =>
    obtain ⟨u, e⟩ := answer
    simp only [Except.mapError, Except.map, Except.ok.injEq, Prod.mk.injEq]
    constructor
    · rintro ⟨rfl, rfl⟩
      exact ⟨rfl, e, rfl, rfl⟩
    · rintro ⟨rfl, _, rfl, rfl⟩
      exact ⟨rfl, rfl⟩

theorem runs_look (expecting : Scan.Expecting) :
    Runs w c (look expecting) (look expecting) fun t d =>
      d = c ∧ ∃ e, Scan.token expecting c = .ok (t, e) := by
  refine runs_of_reads (reads_look expecting) (reads_look expecting) ?_ ?_
  · intro e failed
    unfold Reader.look at failed
    cases call : Reader.scan expecting c with
    | error e =>
      rw [call] at failed
      exact scan_arises _ _ _ (call.trans failed)
    | ok answer =>
      rw [call] at failed
      cases failed
  · intro reached t d looked
    obtain ⟨rfl, e, read⟩ := look_eq_ok_iff.mp looked
    exact ⟨.refl, ⟨rfl, e, read⟩, fun awaits =>
      look_eq_ok_iff.mpr ⟨rfl, _, Continued.token_longer awaits reached read⟩⟩

/-- What a parser does that runs on a text alone. -/
theorem Runs.outcome {source : List Char} {s : ParserState} (runs : Runs (.alone source) c p p' Q)
    (stands : s.At source c) :
    match p s with
    | .ok (a, t) => ∃ d, t.At source d ∧ ReflTransGen Scan.Takes c d ∧ Q a d
    | .error e => e.Arises := by
  obtain ⟨s', stands'⟩ := exists_at (.alone source) stands.reached
  have ran := runs s s' stands stands'
  cases call : p s with
  | error e =>
    rw [call] at ran
    exact ran
  | ok answer =>
    obtain ⟨a, t⟩ := answer
    rw [call] at ran
    obtain ⟨d, there, way, holds, -⟩ := ran
    exact ⟨d, there, way, holds⟩

/-! ### Rules for steps -/

section
variable {k k' : Token → Parser β} {expecting : Scan.Expecting}

theorem Runs.look (next : ∀ t e, Scan.token expecting c = .ok (t, e) → Runs w c (k t) (k' t) R) :
    Runs w c (look expecting >>= k) (look expecting >>= k') R := by
  refine (runs_look expecting).bind ?_
  rintro t d - ⟨rfl, e, read⟩
  exact next t e read

theorem Runs.take (next : ∀ t d, d.rest.length ≤ c.rest.length → Scan.token expecting c = .ok (t, d) →
      Runs w d (k t) (k' t) R) :
    Runs w c (take expecting >>= k) (take expecting >>= k') R :=
  (runs_take expecting).bind next

/-- Takes a token that was looked at. -/
theorem Runs.takeAhead {t : Token} (ahead : Scan.token expecting c = .ok (t, d)) (more : t.kind ≠ .eof)
    (next : d.rest.length < c.rest.length → Runs w d (k t) (k' t) R) :
    Runs w c (Parser.take expecting >>= k) (Parser.take expecting >>= k') R := by
  refine Runs.take fun u e _ read => ?_
  obtain ⟨rfl, rfl⟩ : t = u ∧ d = e := by simpa using ahead.symm.trans read
  exact next (Scan.token_length_lt ahead more)

theorem runs_require {kind : TokenKind} (more : kind ≠ .eof) :
    Runs w c (require kind) (require kind) fun t d =>
      Scan.token .operator c = .ok (t, d) ∧ t.kind = kind ∧ d.rest.length < c.rest.length := by
  refine Runs.look fun t e read => ?_
  split
  next same =>
    have kind := beq_iff_eq.mp same
    refine (runs_take .operator).mono ?_
    rintro u d - again
    obtain ⟨rfl, rfl⟩ : t = u ∧ e = d := by simpa using read.symm.trans again
    exact ⟨read, kind, Scan.token_length_lt read (kind ▸ more)⟩
  · split
    · exact runs_failAt
    · exact runs_failAt

theorem Runs.require {kind : TokenKind} (more : kind ≠ .eof)
    (next : ∀ t d, d.rest.length < c.rest.length → Scan.token .operator c = .ok (t, d) →
      t.kind = kind → Runs w d (k t) (k' t) R) :
    Runs w c (require kind >>= k) (require kind >>= k') R :=
  (runs_require more).bind fun t d _ holds => next t d holds.2.2 holds.1 holds.2.1

theorem runs_eat {kind : TokenKind} :
    Runs w c (eat kind) (eat kind) fun b d => ∃ t e, Scan.token .operator c = .ok (t, e) ∧
      (t.kind == kind) = b ∧ d = if b then e else c := by
  refine Runs.look fun t e read => ?_
  split
  next same =>
    refine Runs.take fun u d _ again => runs_pure ?_
    obtain ⟨rfl, rfl⟩ : t = u ∧ e = d := by simpa using read.symm.trans again
    exact ⟨t, e, read, same, rfl⟩
  next other => exact runs_pure ⟨t, e, read, Bool.eq_false_iff.mpr other, rfl⟩

theorem Runs.eat {kind : TokenKind} {k k' : Bool → Parser β} (more : kind ≠ .eof)
    (yes : ∀ t d, d.rest.length < c.rest.length → Scan.token .operator c = .ok (t, d) → t.kind = kind →
      Runs w d (k true) (k' true) R)
    (no : ∀ t d, Scan.token .operator c = .ok (t, d) → t.kind ≠ kind →
      Runs w c (k false) (k' false) R) :
    Runs w c (eat kind >>= k) (eat kind >>= k') R := by
  refine runs_eat.bind ?_
  rintro b d - ⟨t, e, read, same, rfl⟩
  cases b with
  | true =>
    have same := beq_iff_eq.mp same
    exact yes t e (Scan.token_length_lt read (same ▸ more)) read same
  | false => exact no t e read (by simpa using same)

theorem runs_since (start : Nat) :
    Runs w c (since start) (since start) fun span d => d = c ∧ span = ⟨start, max c.offset start⟩ := by
  intro s s' stands stands'
  have here : since start s = .ok (⟨start, max c.offset start⟩, s) := by
    rw [← stands.prevEnd]
    rfl
  have there : since start s' = .ok (⟨start, max c.offset start⟩, s') := by
    rw [← Cursor.extend_offset c w.more, ← stands'.prevEnd]
    rfl
  rw [here, there]
  exact ⟨c, stands, .refl, ⟨rfl, rfl⟩, fun _ => ⟨s', rfl, stands'⟩⟩

theorem Runs.since {start : Nat} {k k' : Span → Parser β}
    (next : Runs w c (k ⟨start, max c.offset start⟩) (k' ⟨start, max c.offset start⟩) R) :
    Runs w c (since start >>= k) (since start >>= k') R := by
  refine (runs_since start).bind ?_
  rintro span d - ⟨rfl, rfl⟩
  exact next

/-- The token after a name. -/
theorem runs_peekSecond {t : Token} (read : Scan.token expecting c = .ok (t, d))
    (name : t.kind = .identifier) :
    Runs w c peekSecond peekSecond fun _ e => e = c := by
  have first : Reader.scan .operand c = .ok (t, d) := by
    refine scan_eq_ok_iff.mpr (Scan.token_expecting read ?_)
    rw [name]
    rfl
  refine runs_of_reads reads_peekSecond reads_peekSecond ?_ ?_
  · simp only [Reader.peekSecond, bind, Except.bind, first]
    intro e failed
    split at failed
    next call => exact scan_arises _ _ _ (call.trans failed)
    · cases failed
  · intro reached u e looked
    have read := scan_eq_ok_iff.mp first
    simp only [Reader.peekSecond, bind, Except.bind, first] at looked
    split at looked
    · cases looked
    next second again =>
      obtain ⟨v, f⟩ := second
      cases looked
      refine ⟨.refl, rfl, fun awaits => ?_⟩
      have first' := scan_eq_ok_iff.mpr (Continued.token_longer awaits reached read)
      have second' := scan_eq_ok_iff.mpr (Continued.token_longer (awaits.after_identifier read name)
        (reached.trans (Scan.token_reaches read)) (scan_eq_ok_iff.mp again))
      simp only [Reader.peekSecond, bind, Except.bind, first', second']
      rfl

theorem Runs.peekSecond {t : Token} {k k' : Token → Parser β}
    (read : Scan.token expecting c = .ok (t, d)) (name : t.kind = .identifier)
    (next : ∀ u, Runs w c (k u) (k' u) R) :
    Runs w c (peekSecond >>= k) (peekSecond >>= k') R := by
  refine (runs_peekSecond read name).bind ?_
  rintro u d - rfl
  exact next u

/-- What a required token is. -/
theorem require_cases (kind : TokenKind) (c : Cursor) :
    (∃ t d, Reader.require kind c = .ok (t, d) ∧ Scan.token .operator c = .ok (t, d) ∧ t.kind = kind) ∨
      ∃ e, Reader.require kind c = .error e ∧ e.Arises := by
  simp only [Reader.require, Reader.look, Reader.scan, bind, StateT.bind, Except.bind]
  cases read : Scan.token .operator c with
  | error e => exact .inr ⟨_, rfl, (Scan.token_unnamed .operator c).arises read⟩
  | ok answer =>
    obtain ⟨t, d⟩ := answer
    simp only [Except.mapError, Except.map]
    split
    next same =>
      refine .inl ⟨t, d, ?_, rfl, beq_iff_eq.mp same⟩
      simp only [Reader.scan, read, Except.mapError]
    · split
      · exact .inr ⟨_, rfl, fun _ => .inl rfl⟩
      · exact .inr ⟨_, rfl, nofun⟩

theorem require_of_token {kind : TokenKind} {t : Token} (read : Scan.token .operator c = .ok (t, d))
    (same : t.kind = kind) : Reader.require kind c = .ok (t, d) := by
  simp only [Reader.require, Reader.look, Reader.scan, bind, StateT.bind, Except.bind, read,
    Except.mapError, Except.map, same, beq_self_eq_true, if_true]

/-- The start of a token is found again from its offset. -/
theorem start_of_token {source : List Char} {t : Token} (reached : (Cursor.ofSource source).Reaches c)
    (read : Scan.token expecting c = .ok (t, d)) :
    ∃ start, c.Reaches start ∧ start.offset = t.span.start ∧
      (Cursor.ofSource source).seek t.span.start = start := by
  obtain ⟨ps, start, text, follows⟩ := Scan.token_follows read
  have same : start.offset = t.span.start := by rw [follows.span]
  have reaches : c.Reaches start := ⟨_, follows.gap⟩
  obtain ⟨passed, passes⟩ := reached.trans reaches
  refine ⟨start, reaches, same, ?_⟩
  rw [← same]
  exact Cursor.seek_of_passes passes

/-- The piece of a template from the next closing brace. -/
theorem read_templateRest {source : List Char} {t : Token} (reached : (Cursor.ofSource source).Reaches c) :
    Reader.templateRest source c = .ok (t, d) ↔
      ∃ close after start, Scan.token .operator c = .ok (close, after) ∧
        close.kind = .punct .braceClose ∧ c.Reaches start ∧ start.offset = close.span.start ∧
        Scan.templateRest start = .ok (t, d) := by
  simp only [Reader.templateRest, bind, StateT.bind, Except.bind]
  constructor
  · intro found
    rcases require_cases (.punct .braceClose) c with ⟨close, after, done, read, brace⟩ | ⟨e, failed, -⟩
    · obtain ⟨start, reaches, opens, same⟩ := start_of_token reached read
      rw [done] at found
      dsimp only at found
      rw [same] at found
      refine ⟨close, after, start, read, brace, reaches, opens, ?_⟩
      cases piece : Scan.templateRest start with
      | error e =>
        rw [piece] at found
        cases found
      | ok answer =>
        rw [piece] at found
        exact congrArg _ (Except.ok.inj found)
    · rw [failed] at found
      cases found
  · rintro ⟨close, after, start, read, brace, reaches, opens, piece⟩
    obtain ⟨passed, passes⟩ := reached.trans reaches
    rw [require_of_token read brace]
    dsimp only
    rw [← opens, Cursor.seek_of_passes passes, piece]
    rfl

theorem runs_templateRest :
    Runs w c templateRest templateRest fun _ d => d.rest.length < c.rest.length := by
  refine runs_of_reads reads_templateRest reads_templateRest ?_ ?_
  · simp only [Reader.templateRest, bind, StateT.bind, Except.bind]
    rcases require_cases (.punct .braceClose) c with ⟨close, after, done, -⟩ | ⟨e, failed, arises⟩
    · rw [done]
      dsimp only
      cases piece : Scan.templateRest ((Cursor.ofSource w.source).seek close.span.start) with
      | error e =>
        rintro _ ⟨⟩
        exact (Scan.templateRest_unnamed _).arises piece
      | ok answer => rintro _ ⟨⟩
    · rw [failed]
      rintro _ ⟨⟩
      exact arises
  · intro reached t d found
    obtain ⟨close, after, start, read, brace, reaches, opens, piece⟩ :=
      (read_templateRest reached).mp found
    have way : ReflTransGen Scan.Takes c d :=
      .single (.piece close after start t read brace reaches opens piece)
    refine ⟨way, ?_, fun awaits => ?_⟩
    · have := (Scan.templateRest_ok piece).2.2
      have := reaches.length_le
      omega
    · exact (read_templateRest (w.reached_longer reached)).mpr ⟨close, _, start.extend w.more,
        Continued.token_longer (awaits.before way) reached read, brace, reaches.extend w.more, opens,
        Scan.templateRest_extend piece⟩

end

/-! ### Loops -/

/-- What a turn of a loop leads to: a later position, or the end. -/
def Turns (I : σ → Cursor → Prop) (R : β → Cursor → Prop) (c : Cursor) : Turn σ β → Cursor → Prop
  | .again x, d => I x d ∧ d.rest.length < c.rest.length
  | .done b, d => R b d

theorem runs_turns {turn turn' : σ → Parser (Turn σ β)} {I : σ → Cursor → Prop}
    (step : ∀ x d, d.rest.length ≤ c.rest.length → I x d →
      Runs w d (turn x) (turn' x) (Turns I R d)) (n n' : Nat) (x : σ) (d : Cursor)
    (le : d.rest.length ≤ c.rest.length) (holds : I x d) (enough : d.rest.length < n)
    (enough' : d.rest.length < n') : Runs w d (turns turn n x) (turns turn' n' x) R := by
  induction n generalizing n' x d with
  | zero => omega
  | succ n ih =>
    cases n' with
    | zero => omega
    | succ n' =>
      refine (step x d le holds).bind fun r e le' after => ?_
      cases r with
      | done b => exact runs_pure after
      | again y =>
        obtain ⟨holds', lt⟩ := after
        exact ih n' y e (by omega) holds' (by omega) (by omega)

/-- A loop whose turns take a character, up to the last one. -/
theorem runs_loop {turn turn' : σ → Parser (Turn σ β)} {x : σ} (I : σ → Cursor → Prop) (holds : I x c)
    (step : ∀ x d, d.rest.length ≤ c.rest.length → I x d →
      Runs w d (turn x) (turn' x) (Turns I R d)) : Runs w c (loop turn x) (loop turn' x) R := by
  intro s s' stands stands'
  refine runs_turns step (s.position.rest.length + 1) (s'.position.rest.length + 1) x c (Nat.le_refl _)
    holds ?_ ?_ s s' stands stands'
  · rw [stands.position]
    omega
  · rw [stands'.position, Cursor.extend_rest, List.length_append]
    omega

/-- What a turn leads to from a state of its loop, where what holds of that state holds of the next one, and
the answer is as it should be. -/
def Keeps (I : σ → Cursor → Prop) (R : β → Cursor → Prop) (x : σ) (c : Cursor) :
    Turn σ β → Cursor → Prop :=
  Turns (fun y d => I x c → I y d) (fun b d => I x c → R b d) c

/-- A loop whose turns take a character, up to the last one, whatever was read before. -/
theorem runs_loop_keeps {turn turn' : σ → Parser (Turn σ β)} {x : σ} (I : σ → Cursor → Prop)
    (holds : I x c)
    (step : ∀ x d, d.rest.length ≤ c.rest.length → Runs w d (turn x) (turn' x) (Keeps I R x d)) :
    Runs w c (loop turn x) (loop turn' x) R := by
  refine runs_loop I holds fun x d le before => (step x d le).mono fun r e _ after => ?_
  cases r with
  | again y => exact ⟨after.1 before, after.2⟩
  | done b => exact after before

end
end Parser
end NameAudit
