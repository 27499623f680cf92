import NameAudit.Proofs.PatternTexts

/-!
How the rules run that the grammar uses everywhere: names, lists, keys, values and statements in braces.
They run well when the rules that they are written in terms of do (`Grammar.Serves`), which the depth of
the grammar bounds: a rule is served where eight levels are left for each character that is left, and
one for each rule that it may reach without taking a character.
-/
namespace NameAudit

open Cursor (extend)
open Scan (token)

/-- A node read between two positions, of which the second one is later. -/
def Node.Made (P : Node → Prop) (c : Cursor) (n : Node) (d : Cursor) : Prop :=
  d.rest.length < c.rest.length ∧ n.Whole P

/-- Expressions and keys that are whole. -/
def PatternInside.whole (P : Node → Prop) : PatternInside where
  value c e d := Node.Made P c (.expr e) d
  key c k d := d.rest.length < c.rest.length ∧ ∀ a, AllParts (Node.Whole P) (k.parts a)
  pattern _ _ _ := True

/-- The rules of two grammars run well while a number of levels of depth allows it. -/
structure Grammar.Serves (w : Continued) (P : Node → Prop) (g g' : Grammar) (n : Nat) : Prop where
  statement : ∀ {c : Cursor} (ctx : Context), 8 * c.rest.length + 6 ≤ n →
    Parser.Runs w c (g.statement ctx) (g'.statement ctx) fun s => Node.Made P c (.stmt s)
  assignment : ∀ {c : Cursor} (ctx : Context), 8 * c.rest.length + 5 ≤ n →
    Parser.Runs w c (g.assignment ctx) (g'.assignment ctx) fun e => Node.Made P c (.expr e)
  binary : ∀ {c : Cursor} (ctx : Context) (level : Nat), 8 * c.rest.length + 4 ≤ n →
    Parser.Runs w c (g.binary ctx level) (g'.binary ctx level) fun e => Node.Made P c (.expr e)
  unary : ∀ {c : Cursor} (ctx : Context), 8 * c.rest.length + 3 ≤ n →
    Parser.Runs w c (g.unary ctx) (g'.unary ctx) fun e => Node.Made P c (.expr e)
  leftHand : ∀ {c : Cursor} (ctx : Context), 8 * c.rest.length + 2 ≤ n →
    Parser.Runs w c (g.leftHand ctx) (g'.leftHand ctx) fun e => Node.Made P c (.expr e)
  /-- A construction is tried only before its word. -/
  construction : ∀ {c d : Cursor} {t : Token} (ctx : Context), 8 * c.rest.length + 1 ≤ n →
    token .operand c = .ok (t, d) → t.kind = .word .newWord →
    Parser.Runs w c (g.construction ctx) (g'.construction ctx) fun e => Node.Made P c (.expr e)
  pattern : ∀ {c : Cursor} (ctx : Context), 8 * c.rest.length + 1 ≤ n →
    Parser.Runs w c (g.pattern ctx) (g'.pattern ctx) fun p => Written (.whole P) c (.whole p)

namespace Parser

section
variable {α : Type} {w : Continued} {c d : Cursor} {t : Token}

/-! ### Names and values of tokens -/

/-- The escapes of an identifier that the scanner gives can be decoded. -/
theorem runs_nameOf (given : Scan.Given t) (kind : t.kind = .identifier) :
    Runs w c (nameOf t) (nameOf t) fun name d =>
      d = c ∧ (Escape.identifier? t.text.toList).map String.ofList = some name := by
  obtain ⟨ps, -, -, -, decoded⟩ := given.name_parts kind
  unfold nameOf
  rw [decoded]
  exact runs_pure ⟨rfl, rfl⟩

theorem runs_stringOf (kind : t.kind = .string) : Runs w c (stringOf t) (stringOf t) fun _ d => d = c := by
  unfold stringOf
  split
  · exact runs_pure rfl
  · exact runs_failWith fun _ => .inr (congrArg some kind)

theorem runs_identifier :
    Runs w c identifier identifier fun read d => d.rest.length < c.rest.length ∧
      ∃ t, token .operator c = .ok (t, d) ∧ t.Names read.1 ∧ read.2 = t.span := by
  refine Runs.look fun t e ahead => ?_
  split
  next name =>
    have kind := beq_iff_eq.mp name
    refine Runs.takeAhead ahead (by rw [kind]; rintro ⟨⟩) fun lt => ?_
    refine (runs_nameOf ⟨_, _, _, ahead⟩ kind).bind ?_
    rintro name d - ⟨rfl, named⟩
    exact runs_pure ⟨lt, t, ahead, ⟨kind, named⟩, rfl⟩
  · exact runs_unexpected

theorem runs_optionalIdentifier :
    Runs w c optionalIdentifier optionalIdentifier fun _ _ => True := by
  refine Runs.look fun t e read => ?_
  split
  · exact runs_identifier.bind fun _ _ _ _ => runs_pure trivial
  · exact runs_pure trivial

theorem runs_semicolon : Runs w c semicolon semicolon fun _ _ => True := by
  refine Runs.look fun t e read => ?_
  split
  · exact Runs.take fun _ _ _ _ => runs_pure trivial
  · split
    · exact runs_pure trivial
    · exact runs_failAt

/-! ### Lists -/

/-- A turn of a list, whatever was read before. -/
theorem runs_itemsTurn {close : Punctuator} {item item' : Parser (α × Bool)}
    {I : Cursor → α → Bool → Cursor → Prop} (start : Cursor)
    (runs : Runs w c item item' fun x d => d.rest.length < c.rest.length ∧ I c x.1 x.2 d)
    (xs : List α) :
    Runs w c (itemsTurn close item xs) (itemsTurn close item' xs)
      (Keeps (ItemsBefore close I start) (ItemsWritten close I start) xs c) := by
  refine Runs.eat (by rintro ⟨⟩) (fun t e lt closing closes => ?_) (fun t e ahead more => ?_)
  · exact runs_pure fun before => .closed before closing closes
  · refine runs.bind ?_
    rintro ⟨x, isLast⟩ e - ⟨lt, item⟩
    dsimp only at item ⊢
    split
    · refine Runs.require (by rintro ⟨⟩) fun _ f lt' closing closes => ?_
      exact runs_pure fun before => .last before ahead more item closing closes
    next others =>
      rw [Bool.not_eq_true] at others
      refine Runs.eat (by rintro ⟨⟩) (fun _ f lt' comma separates => ?_) (fun _ _ _ _ => ?_)
      · exact runs_pure ⟨fun before => .next before ahead more (others ▸ item) comma separates, by omega⟩
      · refine Runs.require (by rintro ⟨⟩) fun _ f lt' closing closes => ?_
        exact runs_pure fun before => .last before ahead more item closing closes

/-- Items up to a closing token, wherever they are read from. -/
theorem runs_items_written {close : Punctuator} {item item' : Parser (α × Bool)}
    {I : Cursor → α → Bool → Cursor → Prop}
    (each : ∀ d : Cursor, d.rest.length ≤ c.rest.length →
      Runs w d item item' fun x e => e.rest.length < d.rest.length ∧ I d x.1 x.2 e) :
    Runs w c (items close item) (items close item') fun read d => ItemsWritten close I c read d :=
  runs_loop_keeps (ItemsBefore close I c) .none fun xs d le => runs_itemsTurn c (each d le) xs

/-- Items up to a closing token: each one but the last says that others can follow. -/
theorem runs_items {close : Punctuator} {item item' : Parser (α × Bool)} {X : α → Bool → Prop}
    (each : ∀ d : Cursor, d.rest.length ≤ c.rest.length →
      Runs w d item item' fun x e => e.rest.length < d.rest.length ∧ X x.1 x.2) :
    Runs w c (items close item) (items close item') fun read d =>
      d.rest.length < c.rest.length ∧ ∃ init last, read.items = init ++ last ∧
        (∀ x ∈ init, X x false) ∧ (last = [] ∨ ∃ x isLast, last = [x] ∧ X x isLast) := by
  refine (runs_items_written (I := fun d x isLast e => e.rest.length < d.rest.length ∧ X x isLast)
    fun d le => (each d le).mono fun x e _ holds => ⟨holds.1, holds⟩).mono fun read d _ written => ?_
  obtain ⟨init, last, same, before, final⟩ := written.split
  refine ⟨written.length_lt fun _ _ _ _ holds => holds.1, init, last, same, fun x member => ?_, ?_⟩
  · obtain ⟨_, _, _, holds⟩ := before x member
    exact holds
  · rcases final with none | ⟨x, _, _, isLast, one, _, holds⟩
    · exact .inl none
    · exact .inr ⟨x, isLast, one, holds⟩

theorem runs_itemsOf {close : Punctuator} {item item' : Parser α} {X : α → Prop}
    (each : ∀ d : Cursor, d.rest.length ≤ c.rest.length →
      Runs w d item item' fun x e => e.rest.length < d.rest.length ∧ X x) :
    Runs w c (itemsOf close item) (itemsOf close item') fun xs d =>
      d.rest.length < c.rest.length ∧ ∀ x ∈ xs, X x := by
  refine Runs.bind (runs_items (X := fun x _ => X x) fun d le => ?_) ?_
  · exact (each d le).bind fun x e _ holds => runs_pure holds
  · rintro read d - ⟨lt, init, last, same, before, final⟩
    refine runs_pure ⟨lt, fun x member => ?_⟩
    rw [same] at member
    rcases List.mem_append.mp member with early | late
    · exact before x early
    · rcases final with rfl | ⟨y, _, rfl, holds⟩
      · cases late
      · exact List.mem_singleton.mp late ▸ holds

end

/-! ### Rules written in terms of a grammar -/

section
variable {w : Continued} {P : Node → Prop} {g g' : Grammar} {n : Nat} {c : Cursor}

/-- A turn that reads a whole expression on from another one. -/
def KeepsWhole (P : Node → Prop) (left : Expr) (c : Cursor) : Turn Expr Expr → Cursor → Prop :=
  Keeps (fun e _ => (Node.expr e).Whole P) (fun e _ => (Node.expr e).Whole P) left c

/-- A turn that reads whole statements one after the other. -/
def KeepsStatements (P : Node → Prop) (body : List Stmt) (c : Cursor) :
    Turn (List Stmt) (List Stmt) → Cursor → Prop :=
  Keeps (fun body _ => ∀ s ∈ body, (Node.stmt s).Whole P) (fun body _ => ∀ s ∈ body, (Node.stmt s).Whole P)
    body c

theorem forall_mem_concat {α : Type} {Q : α → Prop} {xs : List α} {x : α} (before : ∀ y ∈ xs, Q y)
    (last : Q x) : ∀ y ∈ xs ++ [x], Q y :=
  List.forall_mem_append.mpr ⟨before, List.forall_mem_singleton.mpr last⟩

theorem runs_expressionTurn (law : Law P) (serves : g.Serves w P g' n) (ctx : Context) (left : Expr)
    (fits : 8 * c.rest.length ≤ n) :
    Runs w c (expressionTurn g ctx left) (expressionTurn g' ctx left) (KeepsWhole P left c) := by
  refine Runs.eat (by rintro ⟨⟩) (fun _ d lt _ _ => ?_) (fun _ _ _ _ => runs_pure fun whole => whole)
  refine (serves.assignment ctx (by omega)).bind fun right e _ made => ?_
  have shorter := made.1
  exact runs_pure ⟨fun whole => law.whole rfl rfl fun _ => .cons whole (.single made.2), by omega⟩

theorem runs_expression (law : Law P) (serves : g.Serves w P g' n) (ctx : Context)
    (fits : 8 * c.rest.length + 5 ≤ n) :
    Runs w c (expression g ctx) (expression g' ctx) fun e => Node.Made P c (.expr e) := by
  refine (serves.assignment ctx fits).bind fun first d _ made => ?_
  have shorter := made.1
  refine (runs_loop_keeps (fun left _ => (Node.expr left).Whole P) made.2 fun left e le =>
    runs_expressionTurn law serves ctx left (by omega)).mono fun e f le whole => ?_
  exact ⟨by omega, whole⟩

theorem runs_statementsTurn (serves : g.Serves w P g' n) (ctx : Context) (stop : TokenKind)
    (body : List Stmt) (fits : 8 * c.rest.length + 6 ≤ n) :
    Runs w c (statementsTurn g ctx stop body) (statementsTurn g' ctx stop body)
      (KeepsStatements P body c) := by
  refine Runs.look fun t e read => ?_
  split
  · exact runs_pure fun whole => whole
  · split
    · exact runs_failAt
    · exact (serves.statement ctx fits).bind fun s e _ made =>
        runs_pure ⟨fun whole => forall_mem_concat whole made.2, made.1⟩

theorem runs_statementsUntil (serves : g.Serves w P g' n) (ctx : Context) (stop : TokenKind)
    (fits : 8 * c.rest.length + 6 ≤ n) :
    Runs w c (statementsUntil g ctx stop) (statementsUntil g' ctx stop) fun body _ =>
      ∀ s ∈ body, (Node.stmt s).Whole P :=
  runs_loop_keeps (fun body _ => ∀ s ∈ body, (Node.stmt s).Whole P) (List.forall_mem_nil _)
    fun body d le => runs_statementsTurn serves ctx stop body (by omega)

theorem runs_braced (law : Law P) (serves : g.Serves w P g' n) (ctx : Context)
    (fits : 8 * c.rest.length ≤ n) :
    Runs w c (braced g ctx) (braced g' ctx) fun body => Node.Made P c (.stmts body) := by
  refine Runs.require (by rintro ⟨⟩) fun _ d lt _ _ => ?_
  refine (runs_statementsUntil serves ctx _ (by omega)).bind fun body e le whole => ?_
  refine Runs.require (by rintro ⟨⟩) fun _ f lt' _ _ => ?_
  exact runs_pure ⟨by omega, law.stmts whole⟩

theorem runs_block (law : Law P) (serves : g.Serves w P g' n) (ctx : Context)
    (fits : 8 * c.rest.length ≤ n) :
    Runs w c (block g ctx) (block g' ctx) fun b => Node.Made P c (.block b) := by
  refine Runs.require (by rintro ⟨⟩) fun _ d lt _ _ => ?_
  refine (runs_statementsUntil serves ctx _ (by omega)).bind fun body e le whole => ?_
  refine Runs.require (by rintro ⟨⟩) fun _ f lt' _ _ => ?_
  refine Runs.since ?_
  exact runs_pure ⟨by omega, law.whole rfl rfl fun _ => .single (law.stmts whole)⟩

theorem runs_parenthesised (law : Law P) (serves : g.Serves w P g' n) (ctx : Context)
    (fits : 8 * c.rest.length ≤ n) :
    Runs w c (parenthesised g ctx) (parenthesised g' ctx) fun e => Node.Made P c (.expr e) := by
  refine Runs.require (by rintro ⟨⟩) fun _ d lt _ _ => ?_
  refine (runs_expression law serves ctx (by omega)).bind fun e f le made => ?_
  refine Runs.require (by rintro ⟨⟩) fun _ h lt' _ _ => ?_
  exact runs_pure ⟨by omega, made.2⟩

theorem runs_argument (serves : g.Serves w P g' n) (ctx : Context)
    (fits : 8 * c.rest.length + 5 ≤ n) :
    Runs w c (argument g ctx) (argument g' ctx) fun arg d => d.rest.length < c.rest.length ∧
      ∀ a, AllParts (Node.Whole P) (arg.parts a) := by
  refine Runs.look fun _ _ _ => ?_
  refine runs_eat.bind ?_
  rintro isSpread d le -
  refine (serves.assignment _ (by omega)).bind fun value e _ made => ?_
  have shorter := made.1
  refine Runs.since ?_
  exact runs_pure ⟨by omega, fun _ => .single made.2⟩

theorem runs_arguments (serves : g.Serves w P g' n) (ctx : Context)
    (fits : 8 * c.rest.length ≤ n) :
    Runs w c (arguments g ctx) (arguments g' ctx) fun args d => d.rest.length < c.rest.length ∧
      ∀ a, AllParts (Node.Whole P) (args.flatMap (·.parts a)) := by
  refine Runs.require (by rintro ⟨⟩) fun _ d lt _ _ => ?_
  refine (runs_itemsOf fun e le => runs_argument serves ctx (by omega)).mono fun args f le holds => ?_
  exact ⟨by omega, fun a => .flatMap fun arg here => holds.2 arg here a⟩

theorem runs_key (serves : g.Serves w P g' n) (ctx : Context) (inClass : Bool)
    (fits : 8 * c.rest.length ≤ n) :
    Runs w c (key g ctx inClass) (key g' ctx inClass) fun k d => d.rest.length < c.rest.length ∧
      ∀ a, AllParts (Node.Whole P) (k.parts a) := by
  refine Runs.take fun t d _ read => ?_
  split
  next kind =>
    have lt := Scan.token_length_lt read (by rw [kind]; rintro ⟨⟩)
    refine (runs_nameOf ⟨_, _, _, read⟩ kind).bind ?_
    rintro name d - ⟨rfl, -⟩
    exact runs_pure ⟨lt, fun _ => .nil⟩
  next kind =>
    have lt := Scan.token_length_lt read (by rw [kind]; rintro ⟨⟩)
    refine (runs_stringOf kind).bind ?_
    rintro name d - rfl
    exact runs_pure ⟨lt, fun _ => .nil⟩
  next kind =>
    exact runs_pure ⟨Scan.token_length_lt read (by rw [kind]; rintro ⟨⟩), fun _ => .nil⟩
  next kind =>
    exact runs_pure ⟨Scan.token_length_lt read (by rw [kind]; rintro ⟨⟩), fun _ => .nil⟩
  next kind =>
    exact runs_pure ⟨Scan.token_length_lt read (by rw [kind]; rintro ⟨⟩), fun _ => .nil⟩
  next kind =>
    split
    · exact runs_pure ⟨Scan.token_length_lt read (by rw [kind]; rintro ⟨⟩), fun _ => .nil⟩
    · exact runs_unexpected
  next kind =>
    have lt := Scan.token_length_lt read (by rw [kind]; rintro ⟨⟩)
    refine (serves.assignment _ (by omega)).bind fun e f _ made => ?_
    have shorter := made.1
    refine Runs.require (by rintro ⟨⟩) fun _ h lt' _ _ => ?_
    exact runs_pure ⟨by omega, fun _ => .single made.2⟩
  · exact runs_unexpected

theorem runs_initializer (serves : g.Serves w P g' n) (ctx : Context)
    (fits : 8 * c.rest.length ≤ n) :
    Runs w c (initializer g ctx) (initializer g' ctx) fun e _ =>
      ∀ a, AllParts (Node.Whole P) (Expr.optionalParts a e) := by
  refine Runs.eat (by rintro ⟨⟩) (fun _ d lt _ _ => ?_) (fun _ _ _ _ => runs_pure fun _ => .nil)
  exact (serves.assignment ctx (by omega)).bind fun e f _ made => runs_pure fun _ => .single made.2

end
end Parser
end NameAudit
