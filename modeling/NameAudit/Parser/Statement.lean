import NameAudit.Parser.Expression

/-!
Statements.
-/
namespace NameAudit.Parser

/-- A statement form with its span, before its comment is known. -/
structure BareStatement where
  span : Span
  form : StmtForm

/-- A form that runs from an offset to the last token taken. -/
def formSince (start : Nat) (form : StmtForm) : Parser BareStatement := do
  return ⟨← since start, form⟩

/-- Whether `let` declares names here, and is not an identifier. -/
def startsLet (t : Token) : Parser Bool := do
  if t.isWord "let" then
    match (← peekSecond).kind with
    | .identifier | .punct .bracketOpen | .punct .braceOpen => return true
    | _ => return false
  else return false

/-- Whether an asynchronous function is declared here. -/
def startsAsyncFunction (t : Token) : Parser Bool := do
  if t.isWord "async" then
    let next ← peekSecond
    return next.kind == .word .functionWord && !next.afterNewline
  else return false

/-- A turn of a list of declarators: another one. -/
def declaratorsTurn (g : Grammar) (ctx : Context) (read : List Declarator) :
    Parser (Turn (List Declarator) (List Declarator)) := do
  let p ← g.pattern ctx
  let value ← initializer g ctx
  let read := read ++ [.mk p value]
  if ← eat (.punct .comma) then return .again read else return .done read

/-- Declarators separated by commas. -/
def declarators (g : Grammar) (ctx : Context) : Parser (List Declarator) :=
  loop (declaratorsTurn g ctx) []

/-- A declaration of variables without its semicolon: the span and the declarators. -/
def declaration (g : Grammar) (ctx : Context) : Parser (Span × List Declarator) := do
  let start := (← consume).span.start
  let read ← declarators g ctx
  return (← since start, read)

def variableStatement (g : Grammar) (ctx : Context) (mode : DeclarationMode) :
    Parser BareStatement := do
  let (span, read) ← declaration g ctx
  semicolon
  return ⟨span, .vars mode read⟩

/-- A declaration of a function from its keyword on. -/
def functionStatement (g : Grammar) (start : Nat) (isAsync : Bool) : Parser BareStatement := do
  let _ ← require (.word .functionWord)
  let isGenerator ← eat (.punct .star)
  let (name, nameSpan) ← identifier
  let f ← functionRest g start isAsync isGenerator
  formSince start (.funcDecl name nameSpan f)

def classStatement (g : Grammar) (ctx : Context) : Parser BareStatement := do
  let start := (← consume).span.start
  let (name, nameSpan) ← identifier
  let (base, members) ← classRest g ctx
  formSince start (.classDecl name nameSpan base members)

def ifStatement (g : Grammar) (ctx : Context) : Parser BareStatement := do
  let start := (← consume).span.start
  let test ← parenthesised g ctx
  let consequent ← g.statement ctx
  let alternate ←
    if ← eat (.word .elseWord) then pure (some (← g.statement ctx)) else pure none
  formSince start (.conditional test consequent alternate)

/-- A loop with its condition first. -/
def whileStatement (g : Grammar) (ctx : Context) : Parser BareStatement := do
  let start := (← consume).span.start
  let condition ← parenthesised g ctx
  let body ← g.statement ctx
  formSince start (.whileLoop condition body)

/-- A loop with its condition last; the semicolon after it can always be left out. -/
def doStatement (g : Grammar) (ctx : Context) : Parser BareStatement := do
  let start := (← consume).span.start
  let body ← g.statement ctx
  let _ ← require (.word .whileWord)
  let condition ← parenthesised g ctx
  let _ ← eat (.punct .semicolon)
  formSince start (.doLoop body condition)

/-- The first part of the head of a `for` loop. -/
def forInit (g : Grammar) (ctx : Context) : Parser ForInit := do
  let t ← peekOperand
  match t.kind with
  | .punct .semicolon => return .nothing
  | .word .varWord =>
    let (span, read) ← declaration g ctx
    return .vars span .var read
  | .word .constWord =>
    let (span, read) ← declaration g ctx
    return .vars span .const read
  | _ =>
    if ← startsLet t then
      let (span, read) ← declaration g ctx
      return .vars span .letMode read
    else return .expr (← expression g ctx)

/-- Reads the first part of a `for` loop again as what a loop over keys or elements assigns: a
single declaration without a value, or a target. -/
def forHead (init : ForInit) (next : Token) : Parser ForHead :=
  match init with
  | .vars _ mode [.mk p none] => pure (.declares mode p)
  | .vars span _ _ => failAt (.expected "single declaration without initializer") span none
  | .expr e => do return .target (← ofExcept (e.toTarget true))
  | .nothing => unexpected next "`;`"

/-- A loop over keys or elements, from the word that tells which. -/
def forEachRest (g : Grammar) (ctx : Context) (start : Nat) (isOf isAwait : Bool) (init : ForInit)
    (next : Token) : Parser BareStatement := do
  let _ ← consume
  let head ← forHead init next
  let subject ← if isOf then g.assignment ctx else expression g ctx
  let _ ← require (.punct .parenClose)
  let body ← g.statement ctx
  formSince start (.forEach isOf isAwait head subject body)

/-- An expression unless a certain token comes at once. -/
def expressionUnless (g : Grammar) (ctx : Context) (stop : TokenKind) : Parser (Option Expr) := do
  if (← peekOperand).kind == stop then return none else return some (← expression g ctx)

/-- A loop of three parts, from the semicolon after the first. -/
def forLoopRest (g : Grammar) (ctx : Context) (start : Nat) (init : ForInit) :
    Parser BareStatement := do
  let _ ← require (.punct .semicolon)
  let condition ← expressionUnless g ctx (.punct .semicolon)
  let _ ← require (.punct .semicolon)
  let update ← expressionUnless g ctx (.punct .parenClose)
  let _ ← require (.punct .parenClose)
  let body ← g.statement ctx
  formSince start (.forLoop init condition update body)

/-- A `for` loop of any kind. -/
def forStatement (g : Grammar) (ctx : Context) : Parser BareStatement := do
  let start := (← consume).span.start
  let t ← peek
  let isAwait := ctx.inAsync && t.isWord "await"
  if isAwait then
    let _ ← consume
  let _ ← require (.punct .parenOpen)
  let init ← forInit g ctx.forbidIn
  let next ← peek
  let isOf := next.isWord "of"
  if isAwait && !isOf then unexpected next "`of`"
  else if isOf || next.kind == .word .inWord then forEachRest g ctx start isOf isAwait init next
  else forLoopRest g ctx start init

/-- Whether nothing on this line can belong to the statement any more. -/
def endsHere : Parser Bool := do
  let t ← peekOperand
  return t.afterNewline || t.kind == .punct .semicolon || t.kind == .punct .braceClose ||
    t.kind == .eof

def returnStatement (g : Grammar) (ctx : Context) : Parser BareStatement := do
  let start := (← consume).span.start
  let value ← if ← endsHere then pure none else pure (some (← expression g ctx))
  semicolon
  formSince start (.returns value)

/-- A throw, whose value has to begin on the same line. -/
def throwStatement (g : Grammar) (ctx : Context) : Parser BareStatement := do
  let start := (← consume).span.start
  let t ← peekOperand
  if t.afterNewline then failAt .newlineAfterThrow t.span none
  else
    let value ← expression g ctx
    semicolon
    formSince start (.throws value)

/-- A jump out of a loop or to its next turn. -/
def jumpStatement (form : Option String → StmtForm) : Parser BareStatement := do
  let start := (← consume).span.start
  let label ← if ← endsHere then pure none else pure (some (← identifier).1)
  semicolon
  formSince start (form label)

/-- Whether a token ends the statements of a switch branch. -/
def endsBranch : TokenKind → Bool
  | .word .caseWord | .word .defaultWord | .punct .braceClose | .eof => true
  | _ => false

/-- A turn of the statements of a switch branch: its end, or another statement. -/
def branchBodyTurn (g : Grammar) (ctx : Context) (body : List Stmt) :
    Parser (Turn (List Stmt) (List Stmt)) := do
  if endsBranch (← peekOperand).kind then return .done body
  else return .again (body ++ [← g.statement ctx])

def branchBody (g : Grammar) (ctx : Context) : Parser (List Stmt) :=
  loop (branchBodyTurn g ctx) []

/-- What a switch branch compares with; nothing for the default branch. -/
def branchTest (g : Grammar) (ctx : Context) (t : Token) : Parser (Option Expr) := do
  match t.kind with
  | .word .caseWord =>
    let _ ← consume
    return some (← expression g ctx)
  | .word .defaultWord =>
    let _ ← consume
    return none
  | _ => unexpected t "`case` or `default`"

/-- A turn of the branches of a switch: the closing brace, or another branch. -/
def branchesTurn (g : Grammar) (ctx : Context) (read : List Branch) :
    Parser (Turn (List Branch) (List Branch)) := do
  if ← eat (.punct .braceClose) then return .done read
  else
    let t ← peek
    let test ← branchTest g ctx t
    let _ ← require (.punct .colon)
    let body ← branchBody g ctx
    return .again (read ++ [.mk (← since t.span.start) test body])

/-- The branches of a switch up to the closing brace, which is taken. -/
def branches (g : Grammar) (ctx : Context) : Parser (List Branch) :=
  loop (branchesTurn g ctx) []

def switchStatement (g : Grammar) (ctx : Context) : Parser BareStatement := do
  let start := (← consume).span.start
  let subject ← parenthesised g ctx
  let _ ← require (.punct .braceOpen)
  let read ← branches g ctx
  formSince start (.switch subject read)

/-- What a handler catches, where it is named. -/
def handlerParam (g : Grammar) (ctx : Context) : Parser (Option Pattern) := do
  if ← eat (.punct .parenOpen) then
    let p ← g.pattern ctx
    let _ ← require (.punct .parenClose)
    return some p
  else return none

/-- The handler of a `try`, where there is one. -/
def handler (g : Grammar) (ctx : Context) : Parser (Option Handler) := do
  let t ← peek
  if t.kind == .word .catchWord then
    let _ ← consume
    let param ← handlerParam g ctx
    let .mk _ body ← block g ctx
    return some (.mk (← since t.span.start) param body)
  else return none

/-- A `try` with a handler, a finalizer, or both. -/
def tryStatement (g : Grammar) (ctx : Context) : Parser BareStatement := do
  let start := (← consume).span.start
  let body ← block g ctx
  let caught ← handler g ctx
  let finalizer ←
    if ← eat (.word .finallyWord) then pure (some (← block g ctx)) else pure none
  let span ← since start
  if caught.isNone && finalizer.isNone then failAt .bareTry span none
  else return ⟨span, .attempt body caught finalizer⟩

/-- Statements in the scope of an object. -/
def withStatement (g : Grammar) (ctx : Context) : Parser BareStatement := do
  let start := (← consume).span.start
  let owner ← parenthesised g ctx
  let body ← g.statement ctx
  formSince start (.scoped owner body)

def labelledStatement (g : Grammar) (ctx : Context) : Parser BareStatement := do
  let (name, span) ← identifier
  let _ ← require (.punct .colon)
  let body ← g.statement ctx
  formSince span.start (.labelled name body)

def expressionStatement (g : Grammar) (ctx : Context) (start : Nat) : Parser BareStatement := do
  let e ← expression g ctx
  semicolon
  formSince start (.expr e)

/-- A statement that begins with an identifier: a declaration, a label, or an expression. -/
def wordStatement (g : Grammar) (ctx : Context) (t : Token) : Parser BareStatement := do
  if ← startsLet t then variableStatement g ctx .letMode
  else if ← startsAsyncFunction t then
    let _ ← consume
    functionStatement g t.span.start true
  else if (← peekSecond).kind == .punct .colon then labelledStatement g ctx
  else expressionStatement g ctx t.span.start

/-- A statement without its comment, from its first token. -/
def bareStatement (g : Grammar) (ctx : Context) (t : Token) : Parser BareStatement := do
  match t.kind with
  | .punct .braceOpen =>
    let .mk span body ← block g ctx
    return ⟨span, .block body⟩
  | .word .varWord => variableStatement g ctx .var
  | .word .constWord => variableStatement g ctx .const
  | .word .functionWord => functionStatement g t.span.start false
  | .word .classWord => classStatement g ctx
  | .word .ifWord => ifStatement g ctx
  | .word .whileWord => whileStatement g ctx
  | .word .doWord => doStatement g ctx
  | .word .forWord => forStatement g ctx
  | .word .returnWord => returnStatement g ctx
  | .word .throwWord => throwStatement g ctx
  | .word .breakWord => jumpStatement .breakTo
  | .word .continueWord => jumpStatement .continueTo
  | .word .switchWord => switchStatement g ctx
  | .word .tryWord => tryStatement g ctx
  | .word .withWord => withStatement g ctx
  | .word .debuggerWord =>
    let _ ← consume
    semicolon
    return ⟨t.span, .debugger⟩
  | .punct .semicolon =>
    let _ ← consume
    return ⟨t.span, .empty⟩
  | .identifier => wordStatement g ctx t
  | _ => expressionStatement g ctx t.span.start

/-- A statement with the comment directly before it, unless that comment is about the file. -/
def statementRule (g : Grammar) (ctx : Context) : Parser Stmt := do
  let t ← peekOperand
  let s ← bareStatement g ctx.allowIn t
  return .mk s.span (t.doc.filter (!·.isFileOverview)) s.form

end NameAudit.Parser

namespace NameAudit

/-- The grammar to a depth of nested rules. -/
def Grammar.ofDepth : Nat → Grammar
  | 0 => Grammar.exhausted
  | depth + 1 =>
    { statement := fun ctx s => Parser.statementRule (ofDepth depth) ctx s
      assignment := fun ctx s => Parser.assignmentRule (ofDepth depth) ctx s
      binary := fun ctx level s => Parser.binaryRule (ofDepth depth) ctx level s
      unary := fun ctx s => Parser.unaryRule (ofDepth depth) ctx s
      leftHand := fun ctx s => Parser.leftHandRule (ofDepth depth) ctx s
      construction := fun ctx s => Parser.constructionRule (ofDepth depth) ctx s
      pattern := fun ctx s => Parser.patternRule (ofDepth depth) ctx s }

/-- The grammar for a source text.  A rule reaches itself through at most seven rules without taking
a character, which bounds the depth. -/
def Grammar.forSource (source : List Char) : Grammar := Grammar.ofDepth (8 * (source.length + 1))

/-- A whole program.  Its comment is the first one before the first token that is about the file. -/
def Parser.script (g : Grammar) : Parser Script := do
  let s ← get
  let docs ← ofExcept (Scan.leadingDocs s.source)
  let body ← statementsUntil g {} .eof
  return ⟨⟨0, Text.byteLength s.source⟩, docs.find? (·.isFileOverview), body⟩

/-- Reads a program. -/
def parse (source : String) : Except ParseFailure Script :=
  let cs := source.toList
  match Parser.script (Grammar.forSource cs) (ParserState.ofSource cs) with
  | .ok (script, _) => .ok script
  | .error e => .error e

end NameAudit
