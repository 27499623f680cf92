import NameAudit.Proofs.StatementRegions
import NameAudit.Proofs.Spellings
import NameAudit.Proofs.Primaries

/-!
A function that is a whole statement is never followed by a token that could go on with it. Arrow functions
are recognised among the primary expressions, so the rules for chains, operators and lists go on after their
bodies as after any other operand, be it on the next line: a text that begins with a link of a chain cannot
be a statement of its own after an arrow function (`parse_arrow_not_alone`).
-/
namespace NameAudit

open Cursor (ofSource)
open Scan (token)

/-- A token that goes on with the expression before it, wherever a line ends. -/
def TokenKind.continuesExpression (kind : TokenKind) : Bool :=
  kind.linksChain || (BinaryOperator.ofToken? kind).isSome || kind == .punct .question ||
    (AssignmentOperator.ofToken? kind).isSome || kind == .punct .comma

/-- A function as an expression. -/
def Expr.isFunction : Expr → Bool
  | .func _ _ _ => true
  | _ => false

namespace Parser

/-! ### What a parser answers, wherever it ends -/

section
variable {α β : Type} {p : Parser α} {k : α → Parser β} {P : α → Prop} {Q : β → Prop}

/-- Whatever a parser answers is of a certain kind. -/
def Answers (p : Parser α) (P : α → Prop) : Prop := ∀ s a t, p s = .ok (a, t) → P a

theorem answers_pure {a : α} (holds : P a) : Answers (pure a) P := by
  rintro s b t ⟨⟩
  exact holds

theorem answers_bind (next : ∀ a, Answers (k a) Q) : Answers (p >>= k) Q := by
  intro s b t call
  obtain ⟨⟨a, u⟩, -, after⟩ := bind_eq_ok_iff.mp call
  exact next a u b t after

theorem answers_failAt {cause : SyntaxError.Cause} {span : Span} {found : Option TokenKind} :
    Answers (failAt cause span found) P := by
  rintro s a t ⟨⟩

theorem answers_unexpected {t : Token} {what : String} : Answers (unexpected t what) P := by
  unfold unexpected
  split
  · exact answers_failAt
  · exact answers_failAt

end

/-! ### Expressions -/

/-- The next token, where an operator is expected, is of a certain kind. -/
def Ahead (p : Token → Prop) (c : Cursor) : Prop := ∃ t d, token .operator c = .ok (t, d) ∧ p t

/-- A function has been read only where the next token is of a certain kind. -/
def Stops (p : Token → Prop) (e : Expr) (c : Cursor) : Prop := e.isFunction = true → Ahead p c

/-- A token that makes no link of a chain. -/
def Unlinked (t : Token) : Prop := t.kind.linksChain = false

/-- Likewise no operator that binds tighter than a level. -/
def Uncombined (ctx : Context) (level : Nat) (t : Token) : Prop :=
  Unlinked t ∧ binaryOperator? ctx level t = none

/-- Likewise nothing that goes on with an assignment. -/
def Unassigned (ctx : Context) (t : Token) : Prop :=
  Uncombined ctx 0 t ∧ t.kind ≠ .punct .question ∧ AssignmentOperator.ofToken? t.kind = none

end Parser

/-- Where a statement is a function, some position between the ends of the two is followed by a token that
does not go on with an expression. -/
def Stmt.Halts (source : List Char) : Stmt → Prop
  | .mk span _ (.expr e) => e.isFunction = true → ∃ c, (ofSource source).Reaches c ∧ e.span.stop ≤ c.offset ∧
      c.offset ≤ span.stop ∧ Parser.Ahead (fun t => t.kind.continuesExpression = false) c
  | _ => True

/-- The rules of a grammar end after a function only where they cannot go on. -/
structure Grammar.Halts (source : List Char) (g : Grammar) : Prop where
  statement : ∀ {c : Cursor} (ctx : Context),
    Parser.Ends source c (g.statement ctx) fun s _ => s.Halts source
  leftHand : ∀ {c : Cursor} (ctx : Context),
    Parser.Ends source c (g.leftHand ctx) fun _ => Parser.Ahead Parser.Unlinked
  unary : ∀ {c : Cursor} (ctx : Context),
    Parser.Ends source c (g.unary ctx) (Parser.Stops Parser.Unlinked)
  binary : ∀ {c : Cursor} (ctx : Context) (level : Nat),
    Parser.Ends source c (g.binary ctx level) (Parser.Stops (Parser.Uncombined ctx level))
  assignment : ∀ {c : Cursor} (ctx : Context),
    Parser.Ends source c (g.assignment ctx) (Parser.Stops (Parser.Unassigned ctx))

namespace Parser

section
variable {source : List Char} {g : Grammar} {c : Cursor} {lo : Nat}

/-- A turn that ends its loop takes nothing, and leaves a token of a certain kind ahead. -/
def EndsLoop {σ β : Type} (source : List Char) (c : Cursor) (turn : Parser (Turn σ β)) (p : Token → Prop) :
    Prop :=
  ∀ s x t, s.At source c → turn s = .ok (.done x, t) → t.At source c ∧ Ahead p c

theorem EndsLoop.of_again {σ β : Type} {turn : Parser (Turn σ β)} {p : Token → Prop}
    (goes : Answers turn fun r => ∀ x, r ≠ .done x) : EndsLoop source c turn p :=
  fun s x t _ call => absurd rfl (goes s _ t call x)

theorem endsLoop_look {σ β : Type} {turn : Token → Parser (Turn σ β)} {p : Token → Prop}
    (next : ∀ t d, token .operator c = .ok (t, d) → EndsLoop source c (turn t) p) :
    EndsLoop source c (peek >>= turn) p := by
  intro s x t stands call
  obtain ⟨⟨u, s'⟩, looked, rest⟩ := bind_eq_ok_iff.mp call
  obtain ⟨d, here, -, -, rfl, after, read⟩ := (runs_look (w := .alone source) .operator).ends s u s' stands looked
  exact next u after read s' x t here rest

theorem endsLoop_chainTurn (ctx : Context) (e : Expr) :
    EndsLoop source c (chainTurn g ctx true lo e) Unlinked := by
  have again {α : Type} {p : Parser α} {f : α → Expr} :
      Answers (p >>= fun a => pure (Turn.again (f a) : Turn Expr Expr)) fun r => ∀ x, r ≠ .done x :=
    answers_bind fun _ => answers_pure fun _ => by rintro ⟨⟩
  refine endsLoop_look fun t d read => ?_
  split
  · exact .of_again (answers_bind fun _ => answers_bind fun _ => again)
  · exact .of_again (answers_bind fun _ => again)
  · exact .of_again again
  · exact .of_again (answers_bind fun _ => again)
  · exact .of_again (answers_bind fun _ => again)
  · exact .of_again (answers_bind fun _ => again)
  · rintro s x t stands ⟨⟩
    refine ⟨stands, t, d, read, ?_⟩
    unfold Unlinked TokenKind.linksChain
    split <;> first | rfl | contradiction

theorem EndsLoop.ends {σ β : Type} {turn : Parser (Turn σ β)} {p : Token → Prop} {I : σ → Cursor → Prop}
    {R : β → Cursor → Prop} (halts : EndsLoop source c turn p) (ends : Ends source c turn (Going I R)) :
    Ends source c turn (Going I fun _ => Ahead p) := by
  intro s r t stands call
  obtain ⟨d, there, le, le', holds⟩ := ends s r t stands call
  refine ⟨d, there, le, le', ?_⟩
  cases r with
  | again x => exact holds
  | done x =>
    obtain ⟨here, ahead⟩ := halts s x t stands call
    obtain rfl := here.position.symm.trans there.position
    exact ahead

theorem ends_chain_unlinked (places : g.Places source) (ctx : Context) {first : Expr}
    (before : (Region.expr first).Lies source lo c.offset) :
    Ends source c (chain g ctx true first) fun _ => Ahead Unlinked := by
  refine ends_loop (fun e d => (Region.expr e).Lies source first.span.start d.offset) ?_ ?_
  · exact ⟨Nat.le_refl _, before.some, before.before, before.sound⟩
  · exact fun e d _ _ lies => (endsLoop_chainTurn ctx e).ends (ends_chainTurn places ctx true before.starts lies)

theorem ends_leftHand_unlinked (places : g.Places source) (ctx : Context) :
    Ends source c (leftHandRule g ctx) fun _ => Ahead Unlinked :=
  (ends_chainStart places ctx).bind fun _ _ _ _ lies => ends_chain_unlinked places ctx lies

/-- The token after a function is the one that is read next. -/
theorem Stops.of_read {p q : Token → Prop} {e : Expr} {t : Token} {d : Cursor} (stops : Stops p e c)
    (read : token .operator c = .ok (t, d)) (more : p t → q t) : Stops q e c := by
  intro function
  obtain ⟨u, f, again, holds⟩ := stops function
  cases read.symm.trans again
  exact ⟨t, d, read, more holds⟩

theorem ends_unary_stops (places : g.Places source) (halts : g.Halts source) (ctx : Context) :
    Ends source c (unaryRule g ctx) (Stops Unlinked) := by
  refine Ends.look fun t _ ahead _ => ?_
  split
  next op is =>
    refine Ends.takeAhead ahead (unaryOperator?_ne_eof is) fun _ _ _ _ => ?_
    exact (places.unary ctx).bind fun _ _ _ _ _ => ends_pure (by rintro ⟨⟩)
  · refine (halts.leftHand ctx).bind fun operand d _ _ unlinked => ?_
    refine Ends.look fun u _ ahead _ => ?_
    split
    · exact ends_pure fun _ => unlinked
    next op is =>
      refine Ends.takeAhead ahead (stepOperator?_ne_eof is) fun _ _ _ _ => ?_
      exact Ends.ofExcept fun _ _ => ends_pure (by rintro ⟨⟩)

theorem ends_binary_stops (places : g.Places source) (halts : g.Halts source) (ctx : Context) (level : Nat) :
    Ends source c (binaryRule g ctx level) (Stops (Uncombined ctx level)) := by
  refine (halts.unary ctx).bind fun first d _ _ stops => ?_
  -- Once an operator has been taken, the operand on its left is no function.
  refine ends_loop (Stops Unlinked) stops fun left e _ _ stops => ?_
  refine Ends.look fun t f read _ => ?_
  split
  next nothing => exact ends_pure (stops.of_read read fun unlinked => ⟨unlinked, nothing⟩)
  next op is =>
    refine Ends.takeAhead read (BinaryOperator.ne_eof (Option.filter_eq_some_iff.mp is).1) fun _ _ _ _ => ?_
    exact (places.binary ctx _).bind fun _ _ _ _ _ => ends_pure (by rintro ⟨⟩)

theorem ends_conditional_stops (places : g.Places source) (halts : g.Halts source) (ctx : Context) :
    Ends source c (conditional g ctx) (Stops fun t => Uncombined ctx 0 t ∧ t.kind ≠ .punct .question) := by
  refine (halts.binary ctx 0).bind fun test d _ _ stops => ?_
  refine (runs_eat (w := .alone source)).ends.bind ?_
  rintro asks e - - ⟨t, after, read, same, rfl⟩
  cases asks with
  | true =>
    refine (places.assignment _).bind fun _ _ _ _ _ => Ends.require (by rintro ⟨⟩) fun _ _ _ _ _ _ => ?_
    exact (places.assignment ctx).bind fun _ _ _ _ _ => ends_pure (by rintro ⟨⟩)
  | false => exact ends_pure (stops.of_read read fun holds => ⟨holds, beq_eq_false_iff_ne.mp same⟩)

theorem ends_yield_stops {p : Token → Prop} (places : g.Places source) (ctx : Context) :
    Ends source c (yieldExpression g ctx) (Stops p) := by
  have finish (start : Nat) (isDelegate : Bool) (argument : Option Expr) (d : Cursor) :
      Ends source d (since start >>= fun s => pure (Expr.yield s isDelegate argument)) (Stops p) :=
    (runs_since (w := .alone source) start).ends.bind fun _ _ _ _ _ => ends_pure (by rintro ⟨⟩)
  refine Ends.take fun t d _ _ _ _ => ?_
  refine (runs_eat (w := .alone source)).ends.bind fun isDelegate e _ _ _ => Ends.look fun _ _ _ _ => ?_
  split
  · exact finish t.span.start isDelegate none e
  · exact (places.assignment ctx).bind fun argument f _ _ _ => finish t.span.start isDelegate (some argument) f

theorem ends_assignment_stops (places : g.Places source) (halts : g.Halts source) (ctx : Context) :
    Ends source c (assignmentRule g ctx) (Stops (Unassigned ctx)) := by
  refine Ends.look fun _ _ _ _ => ?_
  split
  · exact ends_yield_stops places ctx
  · refine (ends_conditional_stops places halts ctx).bind fun left d _ _ stops => ?_
    refine Ends.look fun t e read _ => ?_
    split
    next nothing => exact ends_pure (stops.of_read read fun holds => ⟨holds.1, holds.2, nothing⟩)
    next op is =>
      refine Ends.takeAhead read (AssignmentOperator.ne_eof is) fun _ _ _ _ => Ends.ofExcept fun _ _ => ?_
      exact (places.assignment ctx).bind fun _ _ _ _ _ => ends_pure (by rintro ⟨⟩)

/-- An expression, where `in` is an operator. -/
theorem ends_expression_stops (places : g.Places source) (halts : g.Halts source) {ctx : Context}
    (allowed : ctx.noIn = false) :
    Ends source c (expression g ctx) (Stops fun t => t.kind.continuesExpression = false) := by
  refine (halts.assignment ctx).bind fun first d _ _ stops => ?_
  refine ends_loop (Stops (Unassigned ctx)) stops fun left e _ _ stops => ?_
  refine (runs_eat (w := .alone source)).ends.bind ?_
  rintro more f - - ⟨t, after, read, same, rfl⟩
  cases more with
  | true => exact (places.assignment ctx).bind fun _ _ _ _ _ => ends_pure (by rintro ⟨⟩)
  | false =>
    refine ends_pure (stops.of_read read fun ⟨⟨unlinked, nothing⟩, noQuestion, noAssignment⟩ => ?_)
    have noOperator : BinaryOperator.ofToken? t.kind = none := by
      refine Option.eq_none_iff_forall_ne_some.mpr fun op is => ?_
      rw [binaryOperator?, is, Option.filter_some, allowed, decide_eq_true op.precedence_pos] at nothing
      cases nothing
    rw [TokenKind.continuesExpression, unlinked, noOperator, noAssignment, same, beq_eq_false_iff_ne.mpr noQuestion]
    rfl

end

/-! ### Statements -/

/-- A form that is no expression. -/
def NoExpression (b : BareStatement) : Prop := ∀ e, b.form ≠ .expr e

section
variable {source : List Char} {g : Grammar} {c : Cursor}

theorem answers_formSince {start : Nat} {form : StmtForm} (plain : ∀ e, form ≠ .expr e) :
    Answers (formSince start form) NoExpression :=
  answers_bind fun _ => answers_pure plain

theorem answers_variableStatement (ctx : Context) (mode : DeclarationMode) :
    Answers (variableStatement g ctx mode) NoExpression :=
  answers_bind fun _ => answers_bind fun _ => answers_pure fun _ => by rintro ⟨⟩

theorem answers_functionStatement (start : Nat) (isAsync : Bool) :
    Answers (functionStatement g start isAsync) NoExpression :=
  answers_bind fun _ => answers_bind fun _ => answers_bind fun _ => answers_bind fun _ =>
    answers_formSince fun _ => by rintro ⟨⟩

theorem answers_classStatement (ctx : Context) : Answers (classStatement g ctx) NoExpression :=
  answers_bind fun _ => answers_bind fun _ => answers_bind fun _ => answers_formSince fun _ => by rintro ⟨⟩

theorem answers_ifStatement (ctx : Context) : Answers (ifStatement g ctx) NoExpression := by
  refine answers_bind fun _ => answers_bind fun _ => answers_bind fun _ => answers_bind fun _ => ?_
  split
  · exact answers_bind fun _ => answers_formSince fun _ => by rintro ⟨⟩
  · exact answers_formSince fun _ => by rintro ⟨⟩

theorem answers_whileStatement (ctx : Context) : Answers (whileStatement g ctx) NoExpression :=
  answers_bind fun _ => answers_bind fun _ => answers_bind fun _ => answers_formSince fun _ => by rintro ⟨⟩

theorem answers_doStatement (ctx : Context) : Answers (doStatement g ctx) NoExpression :=
  answers_bind fun _ => answers_bind fun _ => answers_bind fun _ => answers_bind fun _ => answers_bind fun _ =>
    answers_formSince fun _ => by rintro ⟨⟩

theorem answers_forEachRest (ctx : Context) (start : Nat) (isOf isAwait : Bool) (init : ForInit) (t : Token) :
    Answers (forEachRest g ctx start isOf isAwait init t) NoExpression := by
  refine answers_bind fun _ => answers_bind fun _ => ?_
  split <;> exact answers_bind fun _ => answers_bind fun _ => answers_bind fun _ =>
    answers_formSince fun _ => by rintro ⟨⟩

theorem answers_forLoopRest (ctx : Context) (start : Nat) (init : ForInit) :
    Answers (forLoopRest g ctx start init) NoExpression :=
  answers_bind fun _ => answers_bind fun _ => answers_bind fun _ => answers_bind fun _ => answers_bind fun _ =>
    answers_bind fun _ => answers_formSince fun _ => by rintro ⟨⟩

theorem answers_forStatement (ctx : Context) : Answers (forStatement g ctx) NoExpression := by
  have rest (start : Nat) (isAwait : Bool) :
      Answers (require (.punct .parenOpen) >>= fun _ => forInit g ctx.forbidIn >>= fun init => peek >>= fun next =>
        if isAwait && !next.isWord "of" then unexpected next "`of`"
        else if next.isWord "of" || next.kind == .word .inWord then
          forEachRest g ctx start (next.isWord "of") isAwait init next
        else forLoopRest g ctx start init) NoExpression := by
    refine answers_bind fun _ => answers_bind fun _ => answers_bind fun _ => ?_
    split
    · exact answers_unexpected
    split
    · exact answers_forEachRest ctx start _ isAwait _ _
    · exact answers_forLoopRest ctx start _
  refine answers_bind fun _ => answers_bind fun _ => ?_
  dsimp only
  split
  · exact answers_bind fun _ => rest _ _
  · exact rest _ _

theorem answers_returnStatement (ctx : Context) : Answers (returnStatement g ctx) NoExpression := by
  refine answers_bind fun _ => answers_bind fun _ => ?_
  split
  · exact answers_bind fun _ => answers_bind fun _ => answers_formSince fun _ => by rintro ⟨⟩
  · exact answers_bind fun _ => answers_bind fun _ => answers_bind fun _ =>
      answers_formSince fun _ => by rintro ⟨⟩

theorem answers_throwStatement (ctx : Context) : Answers (throwStatement g ctx) NoExpression := by
  refine answers_bind fun _ => answers_bind fun _ => ?_
  split
  · exact answers_failAt
  · exact answers_bind fun _ => answers_bind fun _ => answers_formSince fun _ => by rintro ⟨⟩

theorem answers_jumpStatement {form : Option String → StmtForm} (plain : ∀ label e, form label ≠ .expr e) :
    Answers (jumpStatement form) NoExpression := by
  refine answers_bind fun _ => answers_bind fun _ => ?_
  split
  · exact answers_bind fun _ => answers_bind fun _ => answers_formSince (plain _)
  · exact answers_bind fun _ => answers_bind fun _ => answers_bind fun _ => answers_formSince (plain _)

theorem answers_switchStatement (ctx : Context) : Answers (switchStatement g ctx) NoExpression :=
  answers_bind fun _ => answers_bind fun _ => answers_bind fun _ => answers_bind fun _ =>
    answers_formSince fun _ => by rintro ⟨⟩

theorem answers_tryStatement (ctx : Context) : Answers (tryStatement g ctx) NoExpression := by
  have finish (start : Nat) (body : Block) (caught : Option Handler) (finalizer : Option Block) :
      Answers (since start >>= fun span =>
        if caught.isNone && finalizer.isNone then failAt .bareTry span none
        else pure ⟨span, .attempt body caught finalizer⟩) NoExpression := by
    refine answers_bind fun _ => ?_
    split
    · exact answers_failAt
    · exact answers_pure fun _ => by rintro ⟨⟩
  refine answers_bind fun _ => answers_bind fun _ => answers_bind fun _ => answers_bind fun _ => ?_
  split
  · exact answers_bind fun _ => finish _ _ _ _
  · exact finish _ _ _ _

theorem answers_withStatement (ctx : Context) : Answers (withStatement g ctx) NoExpression :=
  answers_bind fun _ => answers_bind fun _ => answers_bind fun _ => answers_formSince fun _ => by rintro ⟨⟩

theorem answers_labelledStatement (ctx : Context) : Answers (labelledStatement g ctx) NoExpression :=
  answers_bind fun _ => answers_bind fun _ => answers_bind fun _ => answers_formSince fun _ => by rintro ⟨⟩

/-- From a position, whatever a parser answers is of a certain kind. -/
def Yields {α : Type} (source : List Char) (c : Cursor) (p : Parser α) (P : α → Prop) : Prop :=
  ∀ s a t, s.At source c → p s = .ok (a, t) → P a

theorem Ends.yields_bind {α β : Type} {p : Parser α} {k : α → Parser β} {Q : α → Cursor → Prop} {P : β → Prop}
    (ends : Ends source c p Q) (next : ∀ a d, c.offset ≤ d.offset → Q a d → Yields source d (k a) P) :
    Yields source c (p >>= k) P := by
  intro s b u stands call
  obtain ⟨⟨a, t⟩, before, after⟩ := bind_eq_ok_iff.mp call
  obtain ⟨d, there, le, -, holds⟩ := ends s a t stands before
  exact next a d le holds t b u there after

theorem yields_pure {α : Type} {a : α} {P : α → Prop} (holds : P a) : Yields source c (pure a) P := by
  rintro s b t - ⟨⟩
  exact holds

/-- A form that makes such a statement. -/
def BareStatement.Halts (source : List Char) (b : BareStatement) : Prop :=
  ∀ doc, (Stmt.mk b.span doc b.form).Halts source

theorem NoExpression.halts {b : BareStatement} (plain : NoExpression b) : b.Halts source := by
  intro doc
  unfold Stmt.Halts
  split
  next same =>
    obtain ⟨rfl, rfl, form⟩ := Stmt.mk.inj same
    exact absurd form (plain _)
  · trivial

theorem Answers.yields {p : Parser BareStatement} (answers : Answers p NoExpression) :
    Yields source c p (BareStatement.Halts source) :=
  fun s b t _ call => (answers s b t call).halts

theorem yields_expressionStatement (places : g.Places source) (halts : g.Halts source) {ctx : Context}
    (allowed : ctx.noIn = false) (start : Nat) :
    Yields source c (expressionStatement g ctx start) (BareStatement.Halts source) := by
  -- Where the expression stands and what follows it are known of the same end.
  have both : Ends source c (expression g ctx) fun e d => (ofSource source).Reaches d ∧
      e.span.stop ≤ d.offset ∧ Stops (fun t => t.kind.continuesExpression = false) e d := by
    intro s e t stands call
    obtain ⟨d, there, le, le', lies⟩ := ends_expression places ctx s e t stands call
    obtain ⟨d', there', -, -, stops⟩ := ends_expression_stops places halts allowed s e t stands call
    obtain rfl := there.position.symm.trans there'.position
    exact ⟨d, there, le, le', there.reached, lies.before, stops⟩
  refine both.yields_bind fun e d _ ⟨reached, before, stops⟩ => ?_
  refine (runs_semicolon (w := .alone source)).ends.yields_bind fun _ f further _ => ?_
  refine (runs_since (w := .alone source) start).ends.yields_bind ?_
  rintro span f' - ⟨rfl, rfl⟩
  exact yields_pure fun doc function => ⟨d, reached, before, further.trans (Nat.le_max_left _ _), stops function⟩

section
variable {t : Token} {d : Cursor}

theorem yields_wordStatement (places : g.Places source) (halts : g.Halts source) {ctx : Context}
    (allowed : ctx.noIn = false) (ahead : token .operand c = .ok (t, d)) (kind : t.kind = .identifier) :
    Yields source c (wordStatement g ctx t) (BareStatement.Halts source) := by
  refine (runs_startsLet (w := .alone source) ahead).ends.yields_bind ?_
  rintro isLet e - ⟨rfl, -⟩
  split
  · exact (answers_variableStatement ctx .letMode).yields
  refine (runs_startsAsyncFunction (w := .alone source) ahead).ends.yields_bind ?_
  rintro isFunction e - rfl
  split
  · exact (answers_bind fun _ => answers_functionStatement _ true).yields
  refine (runs_peekSecond (w := .alone source) ahead kind).ends.yields_bind ?_
  rintro next e - rfl
  split
  · exact (answers_labelledStatement ctx).yields
  · exact yields_expressionStatement places halts allowed _

theorem yields_bareStatement (places : g.Places source) (halts : g.Halts source) {ctx : Context}
    (allowed : ctx.noIn = false) (ahead : token .operand c = .ok (t, d)) :
    Yields source c (bareStatement g ctx t) (BareStatement.Halts source) := by
  unfold bareStatement
  split
  · exact (answers_bind fun ⟨_, _⟩ => answers_pure fun _ => by rintro ⟨⟩).yields
  · exact (answers_variableStatement ctx .var).yields
  · exact (answers_variableStatement ctx .const).yields
  · exact (answers_functionStatement _ false).yields
  · exact (answers_classStatement ctx).yields
  · exact (answers_ifStatement ctx).yields
  · exact (answers_whileStatement ctx).yields
  · exact (answers_doStatement ctx).yields
  · exact (answers_forStatement ctx).yields
  · exact (answers_returnStatement ctx).yields
  · exact (answers_throwStatement ctx).yields
  · exact (answers_jumpStatement fun _ _ => by rintro ⟨⟩).yields
  · exact (answers_jumpStatement fun _ _ => by rintro ⟨⟩).yields
  · exact (answers_switchStatement ctx).yields
  · exact (answers_tryStatement ctx).yields
  · exact (answers_withStatement ctx).yields
  · exact (answers_bind fun _ => answers_bind fun _ => answers_pure fun _ => by rintro ⟨⟩).yields
  · exact (answers_bind fun _ => answers_pure fun _ => by rintro ⟨⟩).yields
  next kind => exact yields_wordStatement places halts allowed ahead kind
  · exact yields_expressionStatement places halts allowed _

end

theorem yields_statementRule (places : g.Places source) (halts : g.Halts source) (ctx : Context) :
    Yields source c (statementRule g ctx) (Stmt.Halts source) := by
  refine (runs_look (w := .alone source) .operand).ends.yields_bind ?_
  rintro t d - ⟨rfl, e, ahead⟩
  intro s a s' stands call
  obtain ⟨⟨b, s₁⟩, read, made⟩ := bind_eq_ok_iff.mp call
  cases made
  exact yields_bareStatement places halts (show ctx.allowIn.noIn = false from rfl) ahead s b _ stands read _

theorem ends_statement_halts (places : g.Places source) (halts : g.Halts source) (ctx : Context) :
    Ends source c (statementRule g ctx) fun s _ => s.Halts source := by
  intro s a t stands call
  obtain ⟨d, there, le, le', -⟩ := ends_statementRule places ctx s a t stands call
  exact ⟨d, there, le, le', yields_statementRule places halts ctx s a t stands call⟩

theorem ends_statementsUntil_halts (halts : g.Halts source) (ctx : Context) (stop : TokenKind) :
    Ends source c (statementsUntil g ctx stop) fun body _ => ∀ s ∈ body, s.Halts source := by
  refine ends_loop (fun body _ => ∀ s ∈ body, s.Halts source) (List.forall_mem_nil _) fun body d _ _ before => ?_
  refine Ends.look fun t _ _ _ => ?_
  split
  · exact ends_pure before
  split
  · exact ends_failAt
  · exact (halts.statement ctx).bind fun s _ _ _ last => ends_pure (forall_mem_concat before last)

theorem ends_script_halts (halts : g.Halts source) :
    Ends source c (script g) fun script _ => ∀ s ∈ script.body, s.Halts source := by
  rintro s answer t stands call
  have ends : Ends source c
      (ofExcept (Scan.leadingDocs s.source) >>= fun docs => statementsUntil g {} .eof >>= fun body =>
        pure (⟨⟨0, Text.byteLength s.source⟩, docs.find? (·.isFileOverview), body⟩ : Script))
      fun script _ => ∀ s ∈ script.body, s.Halts source :=
    Ends.ofExcept fun _ _ => (ends_statementsUntil_halts halts {} .eof).bind fun _ _ _ _ all => ends_pure all
  exact ends s answer t stands call

end
end Parser

theorem Grammar.halts_ofDepth (source : List Char) (depth : Nat) : (ofDepth depth).Halts source := by
  induction depth with
  | zero => constructor <;> intros <;> rintro s a t - ⟨⟩
  | succ depth ih =>
    have places := places_ofDepth source depth
    exact {
      statement := fun ctx => Parser.ends_statement_halts places ih ctx
      leftHand := fun ctx => Parser.ends_leftHand_unlinked places ctx
      unary := fun ctx => Parser.ends_unary_stops places ih ctx
      binary := fun ctx level => Parser.ends_binary_stops places ih ctx level
      assignment := fun ctx => Parser.ends_assignment_stops places ih ctx }

/-- After a function that is a whole statement of an accepted program, no token follows that could go on with
an expression. -/
theorem parse_functions_halt {source : String} {script : Script} (read : parse source = .ok script) :
    ∀ s ∈ script.body, s.Halts source.toList := by
  unfold parse at read
  dsimp only at read
  split at read
  next answer t call =>
    cases read
    have halts := Grammar.halts_ofDepth source.toList (8 * (source.toList.length + 1))
    obtain ⟨_, _, _, _, all⟩ := Parser.ends_script_halts halts _ script t (ParserState.at_ofSource _) call
    exact all
  · cases read

/-! ### A function and the next line -/

/-- A text that begins with a parenthesis, a bracket or a template. -/
inductive BeginsLink : List Char → Prop
  | paren (cs : List Char) : BeginsLink ('(' :: cs)
  | bracket (cs : List Char) : BeginsLink ('[' :: cs)
  | template (cs : List Char) : BeginsLink ('\x60' :: cs)

section
variable {us cs : List Char} {o : Nat} {t : Token} {d : Cursor} {kind : TokenKind}

theorem linksChain_of_lexeme (begins : BeginsLink cs) (found : Scan.lexeme .operator ⟨o, cs⟩ = .ok (kind, d)) :
    kind.linksChain = true := by
  cases begins with
  | paren tail =>
    have opens : Scan.lexeme .operator ⟨o, '(' :: tail⟩ = .ok (.punct .parenOpen, ⟨o + 1, tail⟩) := by
      cbv
    cases opens.symm.trans found
    rfl
  | bracket tail =>
    have opens : Scan.lexeme .operator ⟨o, '[' :: tail⟩ = .ok (.punct .bracketOpen, ⟨o + 1, tail⟩) := by
      cbv
    cases opens.symm.trans found
    rfl
  | template tail =>
    change Scan.template .templateWhole .templateHead ⟨o, '\x60' :: tail⟩ = .ok (kind, d) at found
    unfold Scan.template at found
    dsimp only at found
    split at found <;> cases found <;> rfl

/-- The token after blanks at which such a text begins. -/
theorem linksChain_of_token (blank : Scan.Blank us) (begins : BeginsLink cs)
    (read : token .operator ⟨o, us ++ cs⟩ = .ok (t, d)) : t.kind.linksChain = true := by
  obtain ⟨seen, start, kind, gap, found, rfl⟩ := Scan.token_eq_ok_iff.mp read
  obtain ⟨noted, same⟩ := Scan.trivia_blank (o := o) blank cs {}
  have plain : Scan.BeginsToken cs := by
    intro ch tail whole
    cases begins <;> obtain ⟨rfl, -⟩ := List.cons_eq_cons.mp whole <;> exact ⟨by decide, by rintro ⟨⟩⟩
  rw [same, Scan.trivia_begins plain] at gap
  cases gap
  exact linksChain_of_lexeme begins found

end

/-- Where a text goes on with such a token, no function that is a whole statement ends. -/
theorem function_not_alone {first rest : List Char} {script : Script} {start begin' : Nat}
    {doc : Option DocComment} {name : Option String} {f : Func}
    (goesOn : ∀ t d, token .operator ⟨Text.byteLength first, rest⟩ = .ok (t, d) →
      t.kind.continuesExpression = true)
    (read : parse (String.ofList (first ++ rest)) = .ok script) :
    .mk ⟨start, Text.byteLength first⟩ doc (.expr (.func ⟨begin', Text.byteLength first⟩ name f)) ∉ script.body := by
  intro member
  obtain ⟨c, ⟨passed, passes⟩, le, le', t, d, next, halts⟩ := parse_functions_halt read _ member rfl
  rw [String.toList_ofList] at passes
  have here : (ofSource (first ++ rest)).Passes first ⟨Text.byteLength first, rest⟩ := ⟨rfl, by simp [ofSource]⟩
  -- The statement ends with its function, so that the position between the two ends is where the rest begins.
  have same : c.offset = Text.byteLength first := Nat.le_antisymm le' le
  have there := Cursor.seek_of_passes passes
  rw [same] at there
  obtain rfl : c = _ := there.symm.trans (Cursor.seek_of_passes here)
  rw [goesOn t d next] at halts
  cases halts

/-- A text that is an arrow function with a block body, up to its end, and its one statement. -/
structure ArrowText (text : String) (statement : Stmt) : Prop where
  alone : ∃ doc, parse text = .ok ⟨⟨0, Text.byteLength text.toList⟩, doc, [statement]⟩
  arrow : ∃ start doc isAsync params body, statement = .mk ⟨start, Text.byteLength text.toList⟩ doc
    (.expr (.func ⟨start, Text.byteLength text.toList⟩ none
      (.mk ⟨start, Text.byteLength text.toList⟩ true isAsync false params (.block body))))

/-- No semicolon is inserted after the body of an arrow function when the next line begins with a parenthesis,
a bracket or a template: if the two lines are a program, the arrow function is none of its statements. -/
theorem parse_arrow_not_alone {arrow rest : String} {statement : Stmt} {script : Script}
    (whole : ArrowText arrow statement) (begins : BeginsLink rest.toList)
    (read : parse (arrow ++ "\n" ++ rest) = .ok script) : statement ∉ script.body := by
  obtain ⟨start, doc, isAsync, params, body, rfl⟩ := whole.arrow
  have lines : arrow ++ "\n" ++ rest = String.ofList (arrow.toList ++ (['\n'] ++ rest.toList)) := by
    rw [← String.toList_inj]
    simp
  rw [lines] at read
  refine function_not_alone (fun t d next => ?_) read
  rw [TokenKind.continuesExpression, linksChain_of_token (Scan.blank_singleton (by decide)) begins next]
  rfl

/-- An arrow function without parameters whose body is empty. -/
def emptyArrow : Expr := .func ⟨0, 8⟩ none (.mk ⟨0, 8⟩ true false false [] (.block []))

theorem arrowText_empty : ArrowText "() => \x7b\x7d" (.mk ⟨0, 8⟩ none (.expr emptyArrow)) := by
  refine ⟨⟨none, ?_⟩, 0, none, false, [], [], rfl⟩
  cbv

/-- The function is called with what stands in parentheses on the next line. -/
theorem parse_emptyArrow_called :
    parse "() => \x7b\x7d\n(1)" = .ok ⟨⟨0, 12⟩, none, [.mk ⟨0, 12⟩ none
      (.expr (.call ⟨0, 12⟩ false emptyArrow [.mk ⟨10, 11⟩ false (.literal ⟨10, 11⟩ (.number "1"))]))]⟩ := by
  cbv

theorem parse_arrow_not_alone_empty :
    ∃ script, parse ("() => \x7b\x7d" ++ "\n" ++ "(1)") = .ok script ∧
      ArrowText "() => \x7b\x7d" (.mk ⟨0, 8⟩ none (.expr emptyArrow)) ∧ BeginsLink "(1)".toList ∧
      .mk ⟨0, 8⟩ none (.expr emptyArrow) ∉ script.body := by
  have begins : BeginsLink "(1)".toList := .paren ['1', ')']
  have read := parse_emptyArrow_called
  rw [show "() => \x7b\x7d\n(1)" = "() => \x7b\x7d" ++ "\n" ++ "(1)" by decide] at read
  exact ⟨_, read, arrowText_empty, begins, parse_arrow_not_alone arrowText_empty begins read⟩

/-- Two texts that are a statement each, the first of them an arrow function, are one statement on two lines. -/
theorem arrow_called_on_next_line :
    ∃ call, ArrowText "() => \x7b\x7d" (.mk ⟨0, 8⟩ none (.expr emptyArrow)) ∧
      parse "(1)" = .ok ⟨⟨0, 3⟩, none, [.mk ⟨0, 3⟩ none (.expr (.literal ⟨1, 2⟩ (.number "1")))]⟩ ∧
      parse "() => \x7b\x7d\n(1)" = .ok ⟨⟨0, 12⟩, none, [call]⟩ := by
  refine ⟨_, arrowText_empty, ?_, parse_emptyArrow_called⟩
  cbv

end NameAudit
