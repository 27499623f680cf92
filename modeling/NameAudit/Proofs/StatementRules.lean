import NameAudit.Parser.Statement
import NameAudit.Proofs.ExpressionRules

/-!
How the rules for statements run, and with them all rules of the grammar, as deep as a text needs. What
the parser accepts obeys every law (`parse_whole`), and it never gives up for lack of depth
(`parse_ne_exhausted`).
-/
namespace NameAudit

open Scan (token)

/-! ### Statements that laws tell about -/

section
variable {P : Node → Prop}

/-- Declarators are whole, and their patterns bind names only. -/
structure Declarator.Fine (P : Node → Prop) (ds : List Declarator) : Prop where
  declares : ∀ d ∈ ds, d.Declares
  whole : ∀ a, AllParts (Node.Whole P) (ds.flatMap (·.parts a))

theorem Declarator.Fine.concat {ds : List Declarator} {p : Pattern} {value : Option Expr}
    (fine : Fine P ds) (pattern : (Node.pattern p).Whole P) (declares : p.Declares)
    (whole : ∀ a, AllParts (Node.Whole P) (Expr.optionalParts a value)) :
    Fine P (ds ++ [.mk p value]) := by
  refine ⟨fun d member => ?_, fun a => (fine.whole a).concat (.cons pattern (whole a))⟩
  rcases List.mem_append.mp member with before | last
  · exact fine.declares d before
  · obtain rfl := List.mem_singleton.mp last
    exact declares

/-- What a loop begins with is whole, and its patterns bind names only. -/
structure ForInit.Fine (P : Node → Prop) (init : ForInit) : Prop where
  declares : init.Declares
  whole : ∀ a, AllParts (Node.Whole P) (init.parts a)

/-- What a loop over keys or elements assigns is a target or binds names only. -/
structure ForHead.Fine (P : Node → Prop) (head : ForHead) : Prop where
  assigns : head.Assigns
  all : ∀ a, AllParts (Node.All P) (head.parts a)

end

namespace Parser

/-- A statement form read between two positions, of which the second one is later. -/
def BareStatement.Made (P : Node → Prop) (c : Cursor) (b : BareStatement) (d : Cursor) : Prop :=
  d.rest.length < c.rest.length ∧ ∀ doc, (Node.stmt (.mk b.span doc b.form)).Whole P

/-- A token is still to come. -/
def Begins (c : Cursor) : Prop :=
  ∀ t d, token .operator c = .ok (t, d) → d.rest.length < c.rest.length

theorem begins_of_token {expecting : Scan.Expecting} {c d : Cursor} {t : Token}
    (ahead : token expecting c = .ok (t, d)) (more : t.kind ≠ .eof) : Begins c :=
  fun _ _ read => Scan.token_length_lt read fun ended => more (Scan.eof_of_eof read ahead ended)

section
variable {w : Continued} {P : Node → Prop} {g g' : Grammar} {n : Nat} {c : Cursor}

theorem Runs.first {β : Type} {k k' : Token → Parser β} {R : β → Cursor → Prop} (begins : Begins c)
    (next : ∀ t d, d.rest.length < c.rest.length → Runs w d (k t) (k' t) R) :
    Runs w c (consume >>= k) (consume >>= k') R :=
  Runs.take fun t d _ read => next t d (begins t d read)

theorem runs_formSince {d : Cursor} (law : Law P) (start : Nat) {form : StmtForm}
    (plain : form.isPlain = true) (parts : ∀ a, AllParts (Node.Whole P) (form.parts a))
    (lt : d.rest.length < c.rest.length) :
    Runs w d (formSince start form) (formSince start form) (BareStatement.Made P c) :=
  Runs.since (runs_pure ⟨lt, fun _ => law.whole plain rfl parts⟩)

/-! ### Which statement comes -/

theorem runs_startsLet {expecting : Scan.Expecting} {t : Token} {d : Cursor}
    (ahead : token expecting c = .ok (t, d)) :
    Runs w c (startsLet t) (startsLet t) fun starts e =>
      e = c ∧ (starts = true → t.kind = .identifier) := by
  unfold startsLet
  split
  next same =>
    have kind := isIdentifier_of_isWord same
    refine Runs.peekSecond ahead kind fun next => ?_
    split
    · exact runs_pure ⟨rfl, fun _ => kind⟩
    · exact runs_pure ⟨rfl, fun _ => kind⟩
    · exact runs_pure ⟨rfl, fun _ => kind⟩
    · exact runs_pure ⟨rfl, fun _ => kind⟩
  · exact runs_pure ⟨rfl, by rintro ⟨⟩⟩

theorem runs_startsAsyncFunction {expecting : Scan.Expecting} {t : Token} {d : Cursor}
    (ahead : token expecting c = .ok (t, d)) :
    Runs w c (startsAsyncFunction t) (startsAsyncFunction t) fun _ e => e = c := by
  unfold startsAsyncFunction
  split
  next same => exact Runs.peekSecond ahead (isIdentifier_of_isWord same) fun next => runs_pure rfl
  · exact runs_pure rfl

theorem runs_endsHere : Runs w c endsHere endsHere fun _ _ => True :=
  Runs.look fun _ _ _ => runs_pure trivial

/-! ### Declarations -/

theorem runs_declaratorsTurn (law : Law P) (serves : g.Serves w P g' n) (ctx : Context)
    (ds : List Declarator) (fits : 8 * c.rest.length + 1 ≤ n) :
    Runs w c (declaratorsTurn g ctx ds) (declaratorsTurn g' ctx ds)
      (Keeps (fun ds _ => Declarator.Fine P ds) (fun ds _ => Declarator.Fine P ds) ds c) := by
  refine (runs_pattern law serves ctx fits).bind fun p e _ made => ?_
  have shorter := made.1.1
  refine (runs_initializer serves ctx (by omega)).bind fun value f _ whole => ?_
  have more (fine : Declarator.Fine P ds) := fine.concat made.1.2 made.2 whole
  refine Runs.eat (by rintro ⟨⟩) (fun _ h lt _ _ => ?_) (fun _ _ _ _ => ?_)
  · exact runs_pure ⟨more, by omega⟩
  · exact runs_pure more

theorem runs_declarators (law : Law P) (serves : g.Serves w P g' n) (ctx : Context)
    (fits : 8 * c.rest.length + 1 ≤ n) :
    Runs w c (declarators g ctx) (declarators g' ctx) fun ds _ => Declarator.Fine P ds :=
  runs_loop_keeps (fun ds _ => Declarator.Fine P ds) ⟨List.forall_mem_nil _, fun _ => .nil⟩
    fun ds d le => runs_declaratorsTurn law serves ctx ds (by omega)

theorem runs_declaration (law : Law P) (serves : g.Serves w P g' n) (ctx : Context) (begins : Begins c)
    (fits : 8 * c.rest.length ≤ n) :
    Runs w c (declaration g ctx) (declaration g' ctx) fun read d =>
      d.rest.length < c.rest.length ∧ Declarator.Fine P read.2 := by
  refine Runs.first begins fun _ d lt => ?_
  refine (runs_declarators law serves ctx (by omega)).bind fun ds e le fine => Runs.since ?_
  exact runs_pure ⟨by omega, fine⟩

theorem runs_variableStatement (law : Law P) (serves : g.Serves w P g' n) (ctx : Context)
    (mode : DeclarationMode) (begins : Begins c) (fits : 8 * c.rest.length ≤ n) :
    Runs w c (variableStatement g ctx mode) (variableStatement g' ctx mode)
      (BareStatement.Made P c) := by
  refine (runs_declaration law serves ctx begins fits).bind ?_
  rintro ⟨span, ds⟩ d - ⟨lt, fine⟩
  refine runs_semicolon.bind fun _ e le _ => runs_pure ⟨by omega, fun doc => ?_⟩
  exact ⟨.intro (law.vars span doc mode ds fine.declares) fun a => Node.allParts_of_whole (fine.whole a),
    rfl⟩

theorem runs_functionStatement (law : Law P) (serves : g.Serves w P g' n) (start : Nat)
    (isAsync : Bool) (fits : 8 * c.rest.length ≤ n) :
    Runs w c (functionStatement g start isAsync) (functionStatement g' start isAsync)
      (BareStatement.Made P c) := by
  refine Runs.require (by rintro ⟨⟩) fun _ d lt _ _ => ?_
  refine runs_eat.bind fun isGenerator e le _ => ?_
  refine runs_identifier.bind ?_
  rintro ⟨name, nameSpan⟩ f - ⟨lt', -⟩
  refine (runs_functionRest law serves start isAsync isGenerator (by omega)).bind ?_
  rintro func h - ⟨lt'', whole⟩
  exact runs_formSince law start rfl (fun _ => .single (whole none)) (by omega)

theorem runs_classStatement (law : Law P) (serves : g.Serves w P g' n) (ctx : Context)
    (begins : Begins c) (fits : 8 * c.rest.length ≤ n) :
    Runs w c (classStatement g ctx) (classStatement g' ctx) (BareStatement.Made P c) := by
  refine Runs.first begins fun t d lt => ?_
  refine runs_identifier.bind ?_
  rintro ⟨name, nameSpan⟩ e - ⟨lt', -⟩
  refine (runs_classRest law serves ctx (by omega)).bind ?_
  rintro ⟨base, members⟩ f - ⟨lt'', whole, all⟩
  exact runs_formSince law _ rfl (fun a => (whole a).append (.flatMap fun x here => all x here _))
    (by omega)

/-! ### Conditions and loops -/

theorem runs_ifStatement (law : Law P) (serves : g.Serves w P g' n) (ctx : Context)
    (begins : Begins c) (fits : 8 * c.rest.length ≤ n) :
    Runs w c (ifStatement g ctx) (ifStatement g' ctx) (BareStatement.Made P c) := by
  refine Runs.first begins fun t d lt => ?_
  refine (runs_parenthesised law serves ctx (by omega)).bind fun test e _ test_made => ?_
  have shorter := test_made.1
  refine (serves.statement ctx (by omega)).bind fun consequent f _ made => ?_
  have shorter' := made.1
  refine Runs.eat (by rintro ⟨⟩) (fun _ h lt' _ _ => ?_) (fun _ _ _ _ => ?_)
  · refine (serves.statement ctx (by omega)).bind fun alternate j _ made' => ?_
    have shorter'' := made'.1
    exact runs_formSince law _ rfl (fun _ => .cons test_made.2 (.cons made.2 (.single made'.2))) (by omega)
  · exact runs_formSince law _ rfl (fun _ => .cons test_made.2 (.single made.2)) (by omega)

theorem runs_whileStatement (law : Law P) (serves : g.Serves w P g' n) (ctx : Context)
    (begins : Begins c) (fits : 8 * c.rest.length ≤ n) :
    Runs w c (whileStatement g ctx) (whileStatement g' ctx) (BareStatement.Made P c) := by
  refine Runs.first begins fun t d lt => ?_
  refine (runs_parenthesised law serves ctx (by omega)).bind fun condition e _ made => ?_
  have shorter := made.1
  refine (serves.statement ctx (by omega)).bind fun body f _ made' => ?_
  have shorter' := made'.1
  exact runs_formSince law _ rfl (fun _ => .cons made.2 (.single made'.2)) (by omega)

theorem runs_doStatement (law : Law P) (serves : g.Serves w P g' n) (ctx : Context)
    (begins : Begins c) (fits : 8 * c.rest.length ≤ n) :
    Runs w c (doStatement g ctx) (doStatement g' ctx) (BareStatement.Made P c) := by
  refine Runs.first begins fun t d lt => ?_
  refine (serves.statement ctx (by omega)).bind fun body e _ made => ?_
  have shorter := made.1
  refine Runs.require (by rintro ⟨⟩) fun _ f lt' _ _ => ?_
  refine (runs_parenthesised law serves ctx (by omega)).bind fun condition h _ made' => ?_
  have shorter' := made'.1
  refine runs_eat.bind fun _ j le _ => ?_
  exact runs_formSince law _ rfl (fun _ => .cons made.2 (.single made'.2)) (by omega)

theorem runs_forInit (law : Law P) (serves : g.Serves w P g' n) (ctx : Context)
    (fits : 8 * c.rest.length + 5 ≤ n) :
    Runs w c (forInit g ctx) (forInit g' ctx) fun init _ => init.Fine P := by
  have declared (mode : DeclarationMode) (begins : Begins c) : Runs w c
      (declaration g ctx >>= fun x => pure (ForInit.vars x.1 mode x.2))
      (declaration g' ctx >>= fun x => pure (ForInit.vars x.1 mode x.2))
      fun init _ => init.Fine P := by
    refine (runs_declaration law serves ctx begins (by omega)).bind ?_
    rintro ⟨span, ds⟩ d - ⟨-, fine⟩
    exact runs_pure ⟨fine.declares, fine.whole⟩
  refine Runs.look fun t d ahead => ?_
  split
  · exact runs_pure ⟨trivial, fun _ => .nil⟩
  next kind => exact declared .var (begins_of_token ahead (by rw [kind]; rintro ⟨⟩))
  next kind => exact declared .const (begins_of_token ahead (by rw [kind]; rintro ⟨⟩))
  · refine (runs_startsLet ahead).bind ?_
    rintro isLet e - ⟨rfl, kind⟩
    split
    next starts =>
      exact declared .letMode (begins_of_token ahead (by rw [kind starts]; rintro ⟨⟩))
    · refine (runs_expression law serves ctx fits).bind fun e f _ made => runs_pure ?_
      exact ⟨trivial, fun _ => .single made.2⟩

theorem runs_forHead {init : ForInit} (fine : init.Fine P) (law : Law P) (next : Token) :
    Runs w c (forHead init next) (forHead init next) fun head _ => head.Fine P := by
  unfold forHead
  split
  next span mode p =>
    have declares : p.Declares := fine.declares (.mk p none) List.mem_cons_self
    exact runs_pure ⟨declares, fun a => .single (fine.whole a).first.1⟩
  · exact runs_failAt
  next e =>
    refine (runs_ofExcept (Q := fun target d => d = c ∧ e.toTarget true = .ok target)
      (e.toTarget_refuses true) fun target read => ⟨rfl, read⟩).bind ?_
    rintro target d - ⟨rfl, read⟩
    exact runs_pure ⟨⟨e, read⟩, fun a => .single (law.toTarget read (fine.whole a).first.1)⟩
  · exact runs_unexpected

theorem runs_expressionUnless (law : Law P) (serves : g.Serves w P g' n) (ctx : Context)
    (stop : TokenKind) (fits : 8 * c.rest.length + 5 ≤ n) :
    Runs w c (expressionUnless g ctx stop) (expressionUnless g' ctx stop) fun e _ =>
      ∀ a, AllParts (Node.Whole P) (Expr.optionalParts a e) := by
  refine Runs.look fun t d _ => ?_
  split
  · exact runs_pure fun _ => .nil
  · exact (runs_expression law serves ctx fits).bind fun e f _ made => runs_pure fun _ => .single made.2

theorem runs_forEachRest {d : Cursor} (law : Law P) (serves : g.Serves w P g' n) (ctx : Context)
    (start : Nat) (isOf isAwait : Bool) {init : ForInit} (fine : init.Fine P) (next : Token)
    (lt : d.rest.length < c.rest.length) (fits : 8 * c.rest.length ≤ n) :
    Runs w d (forEachRest g ctx start isOf isAwait init next)
      (forEachRest g' ctx start isOf isAwait init next) (BareStatement.Made P c) := by
  refine Runs.take fun _ e le _ => ?_
  refine (runs_forHead fine law next).bind fun head f le' fine => ?_
  refine Runs.join (Q := fun subject => Node.Made P f (.expr subject))
    (fun _ => serves.assignment ctx (by omega)) (fun _ => runs_expression law serves ctx (by omega)) ?_
  intro subject h _ made
  have shorter := made.1
  refine Runs.require (by rintro ⟨⟩) fun _ j lt' _ _ => ?_
  refine (serves.statement ctx (by omega)).bind fun body k _ made' => Runs.since (runs_pure ?_)
  have shorter' := made'.1
  exact ⟨by omega, fun doc => ⟨.intro (law.forEach _ doc isOf isAwait head subject body fine.assigns)
    fun a => .cons made.2.1 ((fine.all a).append (.single made'.2.1)), rfl⟩⟩

theorem runs_forLoopRest {d : Cursor} (law : Law P) (serves : g.Serves w P g' n) (ctx : Context)
    (start : Nat) {init : ForInit} (fine : init.Fine P)
    (lt : d.rest.length < c.rest.length) (fits : 8 * c.rest.length ≤ n) :
    Runs w d (forLoopRest g ctx start init) (forLoopRest g' ctx start init)
      (BareStatement.Made P c) := by
  refine Runs.require (by rintro ⟨⟩) fun _ e lt' _ _ => ?_
  refine (runs_expressionUnless law serves ctx _ (by omega)).bind fun condition f _ whole => ?_
  refine Runs.require (by rintro ⟨⟩) fun _ h lt'' _ _ => ?_
  refine (runs_expressionUnless law serves ctx _ (by omega)).bind fun update j _ whole' => ?_
  refine Runs.require (by rintro ⟨⟩) fun _ k lt''' _ _ => ?_
  refine (serves.statement ctx (by omega)).bind fun body l _ made => Runs.since (runs_pure ?_)
  have shorter := made.1
  refine ⟨by omega, fun doc => ⟨.intro (law.forLoop _ doc init condition update body fine.declares)
    fun a => Node.allParts_of_whole ?_, rfl⟩⟩
  exact (fine.whole a).append ((whole a).append (.cons made.2 (whole' a)))

theorem runs_forStatement (law : Law P) (serves : g.Serves w P g' n) (ctx : Context)
    (begins : Begins c) (fits : 8 * c.rest.length ≤ n) :
    Runs w c (forStatement g ctx) (forStatement g' ctx) (BareStatement.Made P c) := by
  refine Runs.first begins fun t d lt => ?_
  have rest (isAwait : Bool) (e : Cursor) (le : e.rest.length ≤ d.rest.length) :
      Runs w e
        (do
          let _ ← require (.punct .parenOpen)
          let init ← forInit g ctx.forbidIn
          let next ← peek
          let isOf := next.isWord "of"
          if isAwait && !isOf then unexpected next "`of`"
          else if isOf || next.kind == .word .inWord then
            forEachRest g ctx t.span.start isOf isAwait init next
          else forLoopRest g ctx t.span.start init)
        (do
          let _ ← require (.punct .parenOpen)
          let init ← forInit g' ctx.forbidIn
          let next ← peek
          let isOf := next.isWord "of"
          if isAwait && !isOf then unexpected next "`of`"
          else if isOf || next.kind == .word .inWord then
            forEachRest g' ctx t.span.start isOf isAwait init next
          else forLoopRest g' ctx t.span.start init) (BareStatement.Made P c) := by
    refine Runs.require (by rintro ⟨⟩) fun _ f lt' _ _ => ?_
    refine (runs_forInit law serves _ (by omega)).bind fun init h le' fine => ?_
    refine Runs.look fun next _ _ => ?_
    dsimp only
    split
    · exact runs_unexpected
    split
    · exact runs_forEachRest law serves ctx _ _ _ fine next (by omega) fits
    · exact runs_forLoopRest law serves ctx _ fine (by omega) fits
  refine Runs.look fun await _ _ => ?_
  dsimp only
  split
  · exact Runs.take fun _ e le _ => rest _ e le
  · exact rest _ d (Nat.le_refl _)

/-! ### Jumps -/

theorem runs_returnStatement (law : Law P) (serves : g.Serves w P g' n) (ctx : Context)
    (begins : Begins c) (fits : 8 * c.rest.length ≤ n) :
    Runs w c (returnStatement g ctx) (returnStatement g' ctx) (BareStatement.Made P c) := by
  refine Runs.first begins fun t d lt => ?_
  have finish (value : Option Expr) (e : Cursor) (le : e.rest.length ≤ d.rest.length)
      (whole : ∀ a, AllParts (Node.Whole P) (Expr.optionalParts a value)) :
      Runs w e (semicolon >>= fun _ => formSince t.span.start (.returns value))
        (semicolon >>= fun _ => formSince t.span.start (.returns value)) (BareStatement.Made P c) :=
    runs_semicolon.bind fun _ f le' _ => runs_formSince law _ rfl whole (by omega)
  refine runs_endsHere.bind fun ends e le _ => ?_
  split
  · exact finish none e le fun _ => .nil
  · refine (runs_expression law serves ctx (by omega)).bind fun value f le' made => ?_
    exact finish (some value) f (by omega) fun _ => .single made.2

theorem runs_throwStatement (law : Law P) (serves : g.Serves w P g' n) (ctx : Context)
    (begins : Begins c) (fits : 8 * c.rest.length ≤ n) :
    Runs w c (throwStatement g ctx) (throwStatement g' ctx) (BareStatement.Made P c) := by
  refine Runs.first begins fun t d lt => ?_
  refine Runs.look fun u e _ => ?_
  split
  · exact runs_failAt
  · refine (runs_expression law serves ctx (by omega)).bind fun value f _ made => ?_
    have shorter := made.1
    refine runs_semicolon.bind fun _ h le' _ => ?_
    exact runs_formSince law _ rfl (fun _ => .single made.2) (by omega)

theorem runs_jumpStatement (law : Law P) {form : Option String → StmtForm}
    (plain : ∀ label, (form label).isPlain = true) (none : ∀ label a, (form label).parts a = [])
    (begins : Begins c) :
    Runs w c (jumpStatement form) (jumpStatement form) (BareStatement.Made P c) := by
  refine Runs.first begins fun t d lt => ?_
  have finish (label : Option String) (e : Cursor) (le : e.rest.length ≤ d.rest.length) :
      Runs w e (semicolon >>= fun _ => formSince t.span.start (form label))
        (semicolon >>= fun _ => formSince t.span.start (form label)) (BareStatement.Made P c) :=
    runs_semicolon.bind fun _ f le' _ =>
      runs_formSince law _ (plain label) (fun a => by rw [none]; exact .nil) (by omega)
  refine runs_endsHere.bind fun ends e le _ => ?_
  split
  · exact finish .none e le
  · refine runs_identifier.bind fun label f le' _ => ?_
    exact finish (some label.1) f (by omega)

/-! ### Branches -/

theorem runs_branchBodyTurn (serves : g.Serves w P g' n) (ctx : Context) (body : List Stmt)
    (fits : 8 * c.rest.length + 6 ≤ n) :
    Runs w c (branchBodyTurn g ctx body) (branchBodyTurn g' ctx body) (KeepsStatements P body c) := by
  refine Runs.look fun t e read => ?_
  split
  · exact runs_pure fun whole => whole
  · exact (serves.statement ctx fits).bind fun s e _ made =>
      runs_pure ⟨fun whole => forall_mem_concat whole made.2, made.1⟩

theorem runs_branchBody (serves : g.Serves w P g' n) (ctx : Context)
    (fits : 8 * c.rest.length + 6 ≤ n) :
    Runs w c (branchBody g ctx) (branchBody g' ctx) fun body _ =>
      ∀ s ∈ body, (Node.stmt s).Whole P :=
  runs_loop_keeps (fun body _ => ∀ s ∈ body, (Node.stmt s).Whole P) (List.forall_mem_nil _)
    fun body d le => runs_branchBodyTurn serves ctx body (by omega)

theorem runs_branchTest (law : Law P) (serves : g.Serves w P g' n) (ctx : Context) {t : Token}
    {d : Cursor} (ahead : token .operator c = .ok (t, d)) (fits : 8 * c.rest.length ≤ n) :
    Runs w c (branchTest g ctx t) (branchTest g' ctx t) fun test e =>
      e.rest.length < c.rest.length ∧
        ∀ a, AllParts (Node.Whole P) (Expr.optionalParts a test) := by
  unfold branchTest
  split
  next kind =>
    refine Runs.takeAhead ahead (by rw [kind]; rintro ⟨⟩) fun lt => ?_
    refine (runs_expression law serves ctx (by omega)).bind fun e f _ made => runs_pure ?_
    have shorter := made.1
    exact ⟨by omega, fun _ => .single made.2⟩
  next kind =>
    exact Runs.takeAhead ahead (by rw [kind]; rintro ⟨⟩) fun lt => runs_pure ⟨lt, fun _ => .nil⟩
  · exact runs_unexpected

/-- The branches of a switch are whole. -/
def Branch.AllWhole (P : Node → Prop) (bs : List Branch) : Prop :=
  ∀ a, AllParts (Node.Whole P) (bs.flatMap (·.parts a))

theorem runs_branchesTurn (law : Law P) (serves : g.Serves w P g' n) (ctx : Context) (bs : List Branch)
    (fits : 8 * c.rest.length ≤ n) :
    Runs w c (branchesTurn g ctx bs) (branchesTurn g' ctx bs)
      (Keeps (fun bs _ => Branch.AllWhole P bs) (fun bs _ => Branch.AllWhole P bs) bs c) := by
  refine Runs.eat (by rintro ⟨⟩) (fun _ e lt _ _ => runs_pure fun whole => whole) (fun _ _ _ _ => ?_)
  refine Runs.look fun t e ahead => ?_
  refine (runs_branchTest law serves ctx ahead fits).bind ?_
  rintro test f - ⟨lt, parts⟩
  refine Runs.require (by rintro ⟨⟩) fun _ h lt' _ _ => ?_
  refine (runs_branchBody serves ctx (by omega)).bind fun body j le' statements => ?_
  refine Runs.since (runs_pure ⟨fun whole a => (whole a).concat ?_, by omega⟩)
  exact (parts a).append (.single (law.stmts statements))

theorem runs_branches (law : Law P) (serves : g.Serves w P g' n) (ctx : Context)
    (fits : 8 * c.rest.length ≤ n) :
    Runs w c (branches g ctx) (branches g' ctx) fun bs _ => (Node.branches bs).Whole P := by
  refine (runs_loop_keeps (fun bs _ => Branch.AllWhole P bs) (fun _ => .nil) fun bs d le =>
    runs_branchesTurn law serves ctx bs (by omega)).mono fun bs d le whole => ?_
  exact law.whole rfl rfl whole

theorem runs_switchStatement (law : Law P) (serves : g.Serves w P g' n) (ctx : Context)
    (begins : Begins c) (fits : 8 * c.rest.length ≤ n) :
    Runs w c (switchStatement g ctx) (switchStatement g' ctx) (BareStatement.Made P c) := by
  refine Runs.first begins fun t d lt => ?_
  refine (runs_parenthesised law serves ctx (by omega)).bind fun subject e _ made => ?_
  have shorter := made.1
  refine Runs.require (by rintro ⟨⟩) fun _ f lt' _ _ => ?_
  refine (runs_branches law serves ctx (by omega)).bind fun bs h le whole => ?_
  exact runs_formSince law _ rfl (fun _ => .cons made.2 (.single whole)) (by omega)

/-! ### Handlers -/

theorem runs_handlerParam (law : Law P) (serves : g.Serves w P g' n) (ctx : Context)
    (fits : 8 * c.rest.length ≤ n) :
    Runs w c (handlerParam g ctx) (handlerParam g' ctx) fun param _ =>
      (∀ p, param = some p → p.Declares) ∧
        ∀ a, AllParts (Node.Whole P) (Pattern.optionalParts a param) := by
  refine Runs.eat (by rintro ⟨⟩) (fun _ d lt _ _ => ?_)
    (fun _ _ _ _ => runs_pure ⟨by rintro _ ⟨⟩, fun _ => .nil⟩)
  refine (runs_pattern law serves ctx (by omega)).bind fun p e _ made => ?_
  refine Runs.require (by rintro ⟨⟩) fun _ f lt' _ _ => runs_pure ?_
  exact ⟨by rintro _ ⟨⟩; exact made.2, fun _ => .single made.1.2⟩

theorem runs_handler (law : Law P) (serves : g.Serves w P g' n) (ctx : Context)
    (fits : 8 * c.rest.length ≤ n) :
    Runs w c (handler g ctx) (handler g' ctx) fun h _ =>
      ∀ a : Surroundings, AllParts (Node.Whole P) (h.toList.map fun h => (a, .handler h)) := by
  refine Runs.look fun t d ahead => ?_
  split
  · refine Runs.take fun _ e le _ => ?_
    refine (runs_handlerParam law serves ctx (by omega)).bind ?_
    rintro param f le' ⟨declares, whole⟩
    refine (runs_block law serves ctx (by omega)).bind ?_
    rintro ⟨span, body⟩ h - ⟨-, all, -⟩
    refine Runs.since (runs_pure fun _ => .single ⟨.intro (law.handler _ param body declares) ?_, rfl⟩)
    intro a
    exact (Node.allParts_of_whole (whole a)).append
      (.single (all.part (a := a) List.mem_cons_self))
  · exact runs_pure fun _ => .nil

theorem runs_tryStatement (law : Law P) (serves : g.Serves w P g' n) (ctx : Context)
    (begins : Begins c) (fits : 8 * c.rest.length ≤ n) :
    Runs w c (tryStatement g ctx) (tryStatement g' ctx) (BareStatement.Made P c) := by
  refine Runs.first begins fun t d lt => ?_
  refine (runs_block law serves ctx (by omega)).bind fun body e _ made => ?_
  have shorter := made.1
  refine (runs_handler law serves ctx (by omega)).bind fun caught f le whole => ?_
  have finish (finalizer : Option Block) (h : Cursor) (le' : h.rest.length ≤ f.rest.length)
      (all : ∀ a : Surroundings, AllParts (Node.Whole P) (finalizer.toList.map fun b => (a, .block b))) :
      Runs w h
        (do
          let span ← since t.span.start
          if caught.isNone && finalizer.isNone then failAt .bareTry span none
          else return ⟨span, .attempt body caught finalizer⟩)
        (do
          let span ← since t.span.start
          if caught.isNone && finalizer.isNone then failAt .bareTry span none
          else return ⟨span, .attempt body caught finalizer⟩) (BareStatement.Made P c) := by
    refine Runs.since ?_
    split
    · exact runs_failAt
    · refine runs_pure ⟨by omega, fun _ => law.whole rfl rfl fun a => ?_⟩
      exact .cons made.2 ((whole a).append (all a))
  refine Runs.eat (by rintro ⟨⟩) (fun _ h lt' _ _ => ?_) (fun _ _ _ _ => ?_)
  · refine (runs_block law serves ctx (by omega)).bind fun finalizer j _ made' => ?_
    have shorter' := made'.1
    exact finish (some finalizer) j (by omega) fun _ => .single made'.2
  · exact finish none f (Nat.le_refl _) fun _ => .nil

/-! ### Statements -/

theorem runs_withStatement (law : Law P) (serves : g.Serves w P g' n) (ctx : Context)
    (begins : Begins c) (fits : 8 * c.rest.length ≤ n) :
    Runs w c (withStatement g ctx) (withStatement g' ctx) (BareStatement.Made P c) := by
  refine Runs.first begins fun t d lt => ?_
  refine (runs_parenthesised law serves ctx (by omega)).bind fun owner e _ made => ?_
  have shorter := made.1
  refine (serves.statement ctx (by omega)).bind fun body f _ made' => ?_
  have shorter' := made'.1
  exact runs_formSince law _ rfl (fun _ => .cons made.2 (.single made'.2)) (by omega)

theorem runs_labelledStatement (law : Law P) (serves : g.Serves w P g' n) (ctx : Context)
    (fits : 8 * c.rest.length ≤ n) :
    Runs w c (labelledStatement g ctx) (labelledStatement g' ctx) (BareStatement.Made P c) := by
  refine runs_identifier.bind ?_
  rintro ⟨name, span⟩ d - ⟨lt, -⟩
  refine Runs.require (by rintro ⟨⟩) fun _ e lt' _ _ => ?_
  refine (serves.statement ctx (by omega)).bind fun body f _ made => ?_
  have shorter := made.1
  exact runs_formSince law _ rfl (fun _ => .single made.2) (by omega)

theorem runs_expressionStatement (law : Law P) (serves : g.Serves w P g' n) (ctx : Context)
    (start : Nat) (fits : 8 * c.rest.length + 5 ≤ n) :
    Runs w c (expressionStatement g ctx start) (expressionStatement g' ctx start)
      (BareStatement.Made P c) := by
  refine (runs_expression law serves ctx fits).bind fun e d _ made => ?_
  have shorter := made.1
  refine runs_semicolon.bind fun _ f le _ => ?_
  exact runs_formSince law _ rfl (fun _ => .single made.2) (by omega)

theorem runs_wordStatement {t : Token} {d : Cursor} (law : Law P) (serves : g.Serves w P g' n)
    (ctx : Context) (ahead : token .operand c = .ok (t, d)) (kind : t.kind = .identifier)
    (fits : 8 * c.rest.length + 5 ≤ n) :
    Runs w c (wordStatement g ctx t) (wordStatement g' ctx t) (BareStatement.Made P c) := by
  have begins := begins_of_token ahead (by rw [kind]; rintro ⟨⟩)
  refine (runs_startsLet ahead).bind ?_
  rintro isLet e - ⟨rfl, -⟩
  split
  · exact runs_variableStatement law serves ctx .letMode begins (by omega)
  refine (runs_startsAsyncFunction ahead).bind ?_
  rintro isFunction e - rfl
  split
  · refine Runs.first begins fun _ f lt => ?_
    refine (runs_functionStatement law serves _ true (by omega)).mono fun s h le made => ?_
    have shorter := made.1
    exact ⟨by omega, made.2⟩
  refine Runs.peekSecond ahead kind fun next => ?_
  split
  · exact runs_labelledStatement law serves ctx (by omega)
  · exact runs_expressionStatement law serves ctx _ fits

theorem runs_bareStatement {t : Token} {d : Cursor} (law : Law P) (serves : g.Serves w P g' n)
    (ctx : Context) (ahead : token .operand c = .ok (t, d)) (fits : 8 * c.rest.length + 5 ≤ n) :
    Runs w c (bareStatement g ctx t) (bareStatement g' ctx t) (BareStatement.Made P c) := by
  have begins (more : t.kind ≠ .eof) : Begins c := begins_of_token ahead more
  have fits' : 8 * c.rest.length ≤ n := by omega
  unfold bareStatement
  split
  · refine (runs_block law serves ctx fits').bind ?_
    rintro ⟨span, body⟩ e - ⟨lt, all, -⟩
    refine runs_pure ⟨lt, fun _ => law.whole rfl rfl fun a => .single ?_⟩
    exact ⟨all.part (a := a) List.mem_cons_self, rfl⟩
  next kind => exact runs_variableStatement law serves ctx _ (begins (by rw [kind]; rintro ⟨⟩)) fits'
  next kind => exact runs_variableStatement law serves ctx _ (begins (by rw [kind]; rintro ⟨⟩)) fits'
  · exact runs_functionStatement law serves _ false fits'
  next kind => exact runs_classStatement law serves ctx (begins (by rw [kind]; rintro ⟨⟩)) fits'
  next kind => exact runs_ifStatement law serves ctx (begins (by rw [kind]; rintro ⟨⟩)) fits'
  next kind => exact runs_whileStatement law serves ctx (begins (by rw [kind]; rintro ⟨⟩)) fits'
  next kind => exact runs_doStatement law serves ctx (begins (by rw [kind]; rintro ⟨⟩)) fits'
  next kind => exact runs_forStatement law serves ctx (begins (by rw [kind]; rintro ⟨⟩)) fits'
  next kind => exact runs_returnStatement law serves ctx (begins (by rw [kind]; rintro ⟨⟩)) fits'
  next kind => exact runs_throwStatement law serves ctx (begins (by rw [kind]; rintro ⟨⟩)) fits'
  next kind =>
    exact runs_jumpStatement law (fun _ => rfl) (fun _ _ => rfl) (begins (by rw [kind]; rintro ⟨⟩))
  next kind =>
    exact runs_jumpStatement law (fun _ => rfl) (fun _ _ => rfl) (begins (by rw [kind]; rintro ⟨⟩))
  next kind => exact runs_switchStatement law serves ctx (begins (by rw [kind]; rintro ⟨⟩)) fits'
  next kind => exact runs_tryStatement law serves ctx (begins (by rw [kind]; rintro ⟨⟩)) fits'
  next kind => exact runs_withStatement law serves ctx (begins (by rw [kind]; rintro ⟨⟩)) fits'
  next kind =>
    refine Runs.first (begins (by rw [kind]; rintro ⟨⟩)) fun _ e lt => ?_
    refine runs_semicolon.bind fun _ f le _ => runs_pure ⟨by omega, fun _ => ?_⟩
    exact law.whole rfl rfl fun _ => .nil
  next kind =>
    refine Runs.first (begins (by rw [kind]; rintro ⟨⟩)) fun _ e lt => runs_pure ⟨lt, fun _ => ?_⟩
    exact law.whole rfl rfl fun _ => .nil
  next kind => exact runs_wordStatement law serves ctx ahead kind fits
  · exact runs_expressionStatement law serves ctx _ fits

/-- A statement with the comment directly before it. -/
theorem runs_statementRule (law : Law P) (serves : g.Serves w P g' n) (ctx : Context)
    (fits : 8 * c.rest.length + 5 ≤ n) :
    Runs w c (statementRule g ctx) (statementRule g' ctx) fun s => Node.Made P c (.stmt s) := by
  refine Runs.look fun t d ahead => ?_
  refine (runs_bareStatement law serves _ ahead fits).bind fun s e _ made => runs_pure ?_
  exact ⟨made.1, made.2 _⟩

end
end Parser

/-! ### The whole grammar -/

section
variable {P : Node → Prop}

/-- The grammar runs well to its depth, whatever depth the grammar for the longer text has. -/
theorem Grammar.serves_ofDepth (law : Law P) (w : Continued) (n depth depth' : Nat) (le : n ≤ depth)
    (le' : n ≤ depth') : (ofDepth depth).Serves w P (ofDepth depth') n := by
  induction n generalizing depth depth' with
  | zero => constructor <;> intros <;> omega
  | succ n ih =>
    obtain ⟨depth, rfl⟩ : ∃ k, depth = k + 1 := ⟨depth - 1, by omega⟩
    obtain ⟨depth', rfl⟩ : ∃ k, depth' = k + 1 := ⟨depth' - 1, by omega⟩
    have serves := ih depth depth' (by omega) (by omega)
    exact {
      statement := fun ctx fits => Parser.runs_statementRule law serves ctx (by omega)
      assignment := fun ctx fits => Parser.runs_assignmentRule law serves ctx (by omega)
      binary := fun ctx level fits => Parser.runs_binaryRule law serves ctx level (by omega)
      unary := fun ctx fits => Parser.runs_unaryRule law serves ctx (by omega)
      leftHand := fun ctx fits => Parser.runs_leftHandRule law serves ctx (by omega)
      construction := fun ctx fits ahead word =>
        Parser.runs_constructionRule law serves ctx (by omega) ahead word
      pattern := fun ctx fits => Parser.runs_patternRule (Parser.inside_of_serves serves ctx) (by omega) }

/-- The outcome of the parser: statements that obey every law, or a failure that can arise. -/
theorem parse_outcome (law : Law P) (source : String) :
    match parse source with
    | .ok script => ∀ s ∈ script.body, (Node.stmt s).Whole P
    | .error e => e.Arises := by
  let w := Continued.alone source.toList
  let n := 8 * (source.toList.length + 1)
  have serves := Grammar.serves_ofDepth law w n n n (Nat.le_refl n) (Nat.le_refl n)
  have fits : 8 * (Cursor.ofSource source.toList).rest.length + 6 ≤ n := by
    show 8 * source.toList.length + 6 ≤ 8 * (source.toList.length + 1)
    omega
  obtain ⟨s', standing⟩ := Parser.exists_at w (Cursor.Reaches.refl (Cursor.ofSource source.toList))
  have run := Parser.runs_statementsUntil serves {} .eof fits (ParserState.ofSource source.toList) s'
    (ParserState.at_ofSource _) standing
  have same : Grammar.forSource source.toList = Grammar.ofDepth n := rfl
  simp only [parse, Parser.script, same, bind, StateT.bind, Except.bind, get, getThe, MonadStateOf.get,
    StateT.get, pure, Except.pure]
  have start : (ParserState.ofSource source.toList).source = source.toList := rfl
  rw [start]
  cases comments : Scan.leadingDocs source.toList with
  | error e => exact (Scan.leadingDocs_unnamed _).arises comments
  | ok docs =>
    simp only [Parser.ofExcept, Parser.pure_apply]
    cases call : Parser.statementsUntil (Grammar.ofDepth n) {} .eof (ParserState.ofSource source.toList) with
    | error e =>
      rw [call] at run
      exact run
    | ok answer =>
      rw [call] at run
      obtain ⟨_, _, _, whole, _⟩ := run
      exact whole

/-- The statements of an accepted program obey every law. -/
theorem parse_whole (law : Law P) {source : String} {script : Script}
    (read : parse source = .ok script) : ∀ s ∈ script.body, (Node.stmt s).Whole P := by
  have outcome := parse_outcome law source
  rwa [read] at outcome

end

/-- A property of no node at all, which every tree obeys. -/
theorem Law.trivial : Law fun _ => True := by
  constructor <;> intros <;> exact True.intro

/-- The parser fails only as it can. -/
theorem parse_arises {source : String} {e : ParseFailure} (failed : parse source = .error e) : e.Arises := by
  have outcome := parse_outcome Law.trivial source
  rwa [failed] at outcome

/-- The parser never gives up for lack of depth or of turns. -/
theorem parse_ne_exhausted (source : String) : parse source ≠ .error .exhausted :=
  fun exhausted => parse_arises exhausted

end NameAudit
