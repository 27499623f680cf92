import NameAudit.Parser.State
import NameAudit.Tree.Target

/-!
The rules of the grammar that lead back to themselves, as a record.  The other modules of the parser
write each rule in terms of such a record; tying the record to those rules, up to a depth, gives the
parser.
-/
namespace NameAudit

/-- Readers for the rules that lead back to themselves. -/
structure Grammar where
  statement : Context → Parser Stmt
  assignment : Context → Parser Expr
  /-- Binary operators that bind tighter than a level. -/
  binary : Context → Nat → Parser Expr
  unary : Context → Parser Expr
  /-- Members, calls and constructions. -/
  leftHand : Context → Parser Expr
  construction : Context → Parser Expr
  /-- Patterns that declare names. -/
  pattern : Context → Parser Pattern

/-- The grammar that reads nothing, which stands below the last level of depth. -/
def Grammar.exhausted : Grammar where
  statement _ := throw .exhausted
  assignment _ := throw .exhausted
  binary _ _ := throw .exhausted
  unary _ := throw .exhausted
  leftHand _ := throw .exhausted
  construction _ := throw .exhausted
  pattern _ := throw .exhausted

namespace Parser

/-- A turn of an expression: a comma with another assignment. -/
def expressionTurn (g : Grammar) (ctx : Context) (left : Expr) : Parser (Turn Expr Expr) := do
  if ← eat (.punct .comma) then
    let right ← g.assignment ctx
    return .again (.comma (left.span.join right.span) left right)
  else return .done left

/-- An expression: assignments separated by commas. -/
def expression (g : Grammar) (ctx : Context) : Parser Expr := do
  let first ← g.assignment ctx
  loop (expressionTurn g ctx) first

/-- A turn of a list of statements: the token that ends it, or another statement. -/
def statementsTurn (g : Grammar) (ctx : Context) (stop : TokenKind) (body : List Stmt) :
    Parser (Turn (List Stmt) (List Stmt)) := do
  let t ← peekOperand
  if t.kind == stop then return .done body
  else if t.kind == .eof then failAt .unexpectedEnd t.span none
  else return .again (body ++ [← g.statement ctx])

/-- A list of statements up to, but without, a token. -/
def statementsUntil (g : Grammar) (ctx : Context) (stop : TokenKind) : Parser (List Stmt) :=
  loop (statementsTurn g ctx stop) []

/-- Statements in braces. -/
def braced (g : Grammar) (ctx : Context) : Parser (List Stmt) := do
  let _ ← require (.punct .braceOpen)
  let body ← statementsUntil g ctx (.punct .braceClose)
  let _ ← require (.punct .braceClose)
  return body

/-- Statements in braces, with their span. -/
def block (g : Grammar) (ctx : Context) : Parser Block := do
  let start := (← require (.punct .braceOpen)).span.start
  let body ← statementsUntil g ctx (.punct .braceClose)
  let _ ← require (.punct .braceClose)
  return .mk (← since start) body

def parenthesised (g : Grammar) (ctx : Context) : Parser Expr := do
  let _ ← require (.punct .parenOpen)
  let e ← expression g ctx
  let _ ← require (.punct .parenClose)
  return e

def argument (g : Grammar) (ctx : Context) : Parser Arg := do
  let start := (← peek).span.start
  let isSpread ← eat (.punct .ellipsis)
  let value ← g.assignment ctx.allowIn
  return .mk (← since start) isSpread value

def arguments (g : Grammar) (ctx : Context) : Parser (List Arg) := do
  let _ ← require (.punct .parenOpen)
  itemsOf .parenClose (argument g ctx)

/-- The key of a property; private names are keys in classes only. -/
def key (g : Grammar) (ctx : Context) (inClass : Bool) : Parser Key := do
  let t ← consume
  match t.kind with
  | .identifier => return .direct (← nameOf t)
  | .string => return .direct (← stringOf t)
  | .number => return .direct t.text
  | .bigInt => return .direct t.text
  | .word _ => return .direct t.text
  | .privateName =>
    if inClass then return .hidden t.text else unexpected t "property name"
  | .punct .bracketOpen =>
    let e ← g.assignment ctx.allowIn
    let _ ← require (.punct .bracketClose)
    return .computed e
  | _ => unexpected t "property name"

/-- The value after an equals sign, where there is one. -/
def initializer (g : Grammar) (ctx : Context) : Parser (Option Expr) := do
  if ← eat (.punct .assign) then return some (← g.assignment ctx)
  else return none

end Parser
end NameAudit
