import NameAudit.Token.Scan

/-!
The state of a parser: the position of the scanner, at most one token read ahead, and the end of the
last token taken.  The token ahead only saves reading it again: with it, the scanner stands after that
token, and where reading goes on is the position from which the token was read.
-/
namespace NameAudit

/-- What the code around an expression allows in it. -/
structure Context where
  /-- `yield` is an operator inside generators and an identifier elsewhere. -/
  inGenerator : Bool := false
  /-- Likewise `await` inside asynchronous functions. -/
  inAsync : Bool := false
  /-- In the head of a loop, `in` ends the expression. -/
  noIn : Bool := false
  deriving DecidableEq, Inhabited, Repr

namespace Context

/-- The inside of a function. -/
def function (isAsync isGenerator : Bool) : Context := ⟨isGenerator, isAsync, false⟩

/-- The same context with `in` as an operator. -/
def allowIn (c : Context) : Context := { c with noIn := false }

/-- The same context without `in` as an operator. -/
def forbidIn (c : Context) : Context := { c with noIn := true }

end Context

/-- Why a parser gives up. -/
inductive ParseFailure where
  | malformed (e : SyntaxError)
  /-- The bound on the depth of the grammar or on the turns of a loop was reached. -/
  | exhausted
  deriving DecidableEq, Inhabited, Repr

/-- A token read ahead, what was expected when it was read, and the position from which it was read,
before the blanks and comments in front of it. -/
structure Lookahead where
  token : Token
  expecting : Scan.Expecting
  start : Cursor
  deriving DecidableEq, Inhabited, Repr

/-- A position to come back to, and the end of the last token taken before it. -/
structure Checkpoint where
  next : Cursor
  prevEnd : Nat
  deriving DecidableEq, Inhabited, Repr

structure ParserState where
  source : List Char
  /-- The position of the scanner. -/
  next : Cursor
  ahead : Option Lookahead
  /-- The offset at which the last token taken ends. -/
  prevEnd : Nat
  deriving Inhabited, Repr

namespace ParserState

/-- The state before the first token. -/
def ofSource (source : List Char) : ParserState := ⟨source, Cursor.ofSource source, none, 0⟩

/-- The position from which the next token is read, be it a second time. -/
def position (s : ParserState) : Cursor :=
  match s.ahead with
  | some a => a.start
  | none => s.next

/-- The position at an offset of the source text. -/
def cursorAt (s : ParserState) (offset : Nat) : Cursor := (Cursor.ofSource s.source).seek offset

/-- The token ahead, if it can serve the expectation: it does unless it begins with a slash and was
read with the other expectation. -/
def cached? (s : ParserState) (expecting : Scan.Expecting) : Option Lookahead :=
  s.ahead.filter fun a => a.expecting == expecting || !a.token.kind.isSlash

end ParserState

/-- Reads from a state, or gives up. -/
abbrev Parser := StateT ParserState (Except ParseFailure)

namespace Parser

def failWith {α : Type} (e : SyntaxError) : Parser α := throw (.malformed e)

def failAt {α : Type} (cause : SyntaxError.Cause) (span : Span) (found : Option TokenKind) :
    Parser α :=
  failWith ⟨cause, span, found⟩

/-- Gives up where a computation without state does. -/
def ofExcept {α : Type} : Except SyntaxError α → Parser α
  | .ok a => pure a
  | .error e => failWith e

/-- The next token, which stays ahead. -/
def look (expecting : Scan.Expecting) : Parser Token := do
  let s ← get
  match s.cached? expecting with
  | some a => pure a.token
  | none =>
    let (t, after) ← ofExcept (Scan.token expecting s.position)
    set { s with next := after, ahead := some ⟨t, expecting, s.position⟩ }
    pure t

def take (expecting : Scan.Expecting) : Parser Token := do
  let t ← look expecting
  modify fun s => { s with ahead := none, prevEnd := t.span.stop }
  pure t

/-- The next token, where an operator is expected. -/
def peek : Parser Token := look .operator

/-- The next token, where an operand is expected. -/
def peekOperand : Parser Token := look .operand

/-- Takes the next token, where an operator is expected. -/
def consume : Parser Token := take .operator

/-- Takes the next token, where an operand is expected. -/
def consumeOperand : Parser Token := take .operand

/-- Takes the next token if it is of this kind. -/
def eat (kind : TokenKind) : Parser Bool := do
  if (← peek).kind == kind then
    let _ ← consume
    return true
  else return false

/-- Takes the next token, which has to be of this kind. -/
def require (kind : TokenKind) : Parser Token := do
  let t ← peek
  if t.kind == kind then consume
  else if t.kind == .eof then failAt .unexpectedEnd t.span none
  else failAt (.missing kind) t.span (some t.kind)

def checkpoint : Parser Checkpoint := do
  let s ← get
  return ⟨s.position, s.prevEnd⟩

def restore (c : Checkpoint) : Parser Unit :=
  modify fun s => { s with next := c.next, ahead := none, prevEnd := c.prevEnd }

/-- The token after the next one, where an operator is expected. -/
def peekSecond : Parser Token := do
  let c ← checkpoint
  let _ ← consumeOperand
  let second ← peek
  restore c
  return second

/-- The span from an offset to the end of the last token taken. -/
def since (start : Nat) : Parser Span := do return ⟨start, max (← get).prevEnd start⟩

/-- Takes the piece of a template that begins with the closing brace of a substitution: the scanner
goes back to the brace, which was taken as a token of its own. -/
def templateRest : Parser Token := do
  let close ← require (.punct .braceClose)
  let s ← get
  let (t, after) ← ofExcept (Scan.templateRest (s.cursorAt close.span.start))
  set { s with next := after, prevEnd := t.span.stop }
  return t

/-- Ends a statement with a semicolon, which may be left out before a line break, a closing brace
and the end of the program. -/
def semicolon : Parser Unit := do
  let t ← peek
  if t.kind == .punct .semicolon then
    let _ ← consume
  else if t.kind == .punct .braceClose || t.kind == .eof || t.afterNewline then
    pure ()
  else failAt (.missing (.punct .semicolon)) t.span (some t.kind)

/-- Gives up at a token that does not fit what is described. -/
def unexpected {α : Type} (t : Token) (what : String) : Parser α :=
  if t.kind == .eof then failAt .unexpectedEnd t.span none
  else failAt (.expected what) t.span (some t.kind)

/-- The name that an identifier stands for. -/
def nameOf (t : Token) : Parser String :=
  match Escape.identifier? t.text.toList with
  | some name => pure (String.ofList name)
  | none => failAt .invalidEscape t.span (some t.kind)

/-- The value that a string literal stands for. -/
def stringOf (t : Token) : Parser String :=
  match Escape.stringLiteral? t.text.toList with
  | some value => pure (String.ofList value)
  | none => failAt .invalidEscape t.span (some t.kind)

def identifier : Parser (String × Span) := do
  let t ← peek
  if t.kind == .identifier then
    let _ ← consume
    return (← nameOf t, t.span)
  else unexpected t "identifier"

/-- Takes an identifier where there is one. -/
def optionalIdentifier : Parser (Option String) := do
  if (← peek).kind == .identifier then return some (← identifier).1
  else return none

/-- One turn of a loop: another turn, or the answer. -/
inductive Turn (σ β : Type) where
  | again (state : σ)
  | done (answer : β)

/-- Runs at most `n` turns. -/
def turns {σ β : Type} (turn : σ → Parser (Turn σ β)) : Nat → σ → Parser β
  | 0, _ => throw .exhausted
  | n + 1, x => do
    match ← turn x with
    | .again y => turns turn n y
    | .done b => pure b

/-- Runs turns until there is an answer.  Each turn that asks for another has to take a character,
so the characters that are left bound their number. -/
def loop {σ β : Type} (turn : σ → Parser (Turn σ β)) (x : σ) : Parser β := do
  turns turn ((← get).position.rest.length + 1) x

/-- The items of a list up to its closing token. -/
structure Items (α : Type) where
  items : List α
  /-- A comma stands before the closing token. -/
  trailingComma : Bool

/-- What follows an item that others can follow: a comma, or the closing token. -/
def afterItem {α : Type} (close : Punctuator) (more ended : α) : Parser α := do
  if ← eat (.punct .comma) then return more
  else
    let _ ← require (.punct close)
    return ended

/-- A turn of a list: its closing token, or an item, which can say that it has to be the last. -/
def itemsTurn {α : Type} (close : Punctuator) (item : Parser (α × Bool)) (read : List α) :
    Parser (Turn (List α) (Items α)) := do
  if ← eat (.punct close) then return .done ⟨read, !read.isEmpty⟩
  else
    let (x, isLast) ← item
    if isLast then
      let _ ← require (.punct close)
      return .done ⟨read ++ [x], false⟩
    else afterItem close (.again (read ++ [x])) (.done ⟨read ++ [x], false⟩)

/-- Reads items separated by commas up to a closing token, which is taken. -/
def items {α : Type} (close : Punctuator) (item : Parser (α × Bool)) : Parser (Items α) :=
  loop (itemsTurn close item) []

/-- An item that others can follow. -/
def listItem {α : Type} (item : Parser α) : Parser (α × Bool) := do return (← item, false)

/-- Items of which none has to be the last. -/
def itemsOf {α : Type} (close : Punctuator) (item : Parser α) : Parser (List α) := do
  return (← items close (listItem item)).items

end Parser
end NameAudit
