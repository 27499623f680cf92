import NameAudit.Parser.Function

/-!
Expressions, from primary ones to assignments.  An arrow function is recognised only after its
parameters, which are read as expressions until then.
-/
namespace NameAudit.Parser

/-- The name of a property after a point. -/
def memberName : Parser String := do
  let t ← consume
  match t.kind with
  | .privateName => return t.text
  | .identifier => nameOf t
  | .word _ => return t.text
  | _ => unexpected t "property name"

/-- A key in brackets after an expression. -/
def indexed (g : Grammar) (ctx : Context) (owner : Expr) (isOptional : Bool) : Parser Expr := do
  let _ ← require (.punct .bracketOpen)
  let k ← expression g ctx.allowIn
  let _ ← require (.punct .bracketClose)
  return .index (← since owner.span.start) isOptional owner k

/-- Whether a piece of a template is followed by a substitution. -/
def opensSubstitution : TokenKind → Bool
  | .templateHead | .templateMiddle => true
  | _ => false

/-- A turn of the substitutions of a template: one with the piece after it, unless the last piece ends
the template. -/
def substitutionsTurn (g : Grammar) (ctx : Context) (read : List Expr × TokenKind) :
    Parser (Turn (List Expr × TokenKind) (List Expr)) := do
  if opensSubstitution read.2 then
    let e ← expression g ctx.allowIn
    let next ← templateRest
    return .again (read.1 ++ [e], next.kind)
  else return .done read.1

/-- A template after its first piece, from the start of its tag or of itself. -/
def templateExpression (g : Grammar) (ctx : Context) (first : Token) (tag : Option Expr) :
    Parser Expr := do
  let start := match tag with
    | some e => e.span.start
    | none => first.span.start
  let substitutions ← loop (substitutionsTurn g ctx) ([], first.kind)
  return .template (← since start) tag substitutions

/-- What follows `?.` after an expression. -/
def optionalLink (g : Grammar) (ctx : Context) (start : Nat) (e : Expr) : Parser Expr := do
  match (← peek).kind with
  | .punct .parenOpen =>
    let args ← arguments g ctx
    return .call (← since start) true e args
  | .punct .bracketOpen => indexed g ctx e true
  | _ =>
    let name ← memberName
    return .member (← since start) true e name

/-- A turn of a chain that begins at an offset: another link, if there is one.  Without `calls`, a
plain argument list ends the chain. -/
def chainTurn (g : Grammar) (ctx : Context) (calls : Bool) (start : Nat) (e : Expr) :
    Parser (Turn Expr Expr) := do
  let t ← peek
  match t.kind with
  | .punct .dot =>
    let _ ← consume
    let name ← memberName
    return .again (.member (← since start) false e name)
  | .punct .questionDot =>
    let _ ← consume
    return .again (← optionalLink g ctx start e)
  | .punct .bracketOpen => return .again (← indexed g ctx e false)
  | .punct .parenOpen =>
    if calls then
      let args ← arguments g ctx
      return .again (.call (← since start) false e args)
    else return .done e
  | .templateWhole | .templateHead =>
    let _ ← consume
    return .again (← templateExpression g ctx t (some e))
  | _ => return .done e

/-- Members, calls and tagged templates after an expression. -/
def chain (g : Grammar) (ctx : Context) (calls : Bool) (first : Expr) : Parser Expr :=
  loop (chainTurn g ctx calls first.span.start) first

/-- A parameter that is a single name. -/
def namedParam (name : String) (span : Span) : Param :=
  Param.ofParts (.ident span name) false none

/-- Reads arguments again as parameters. -/
def argsToParams : List Arg → Except SyntaxError (List Param)
  | [] => .ok []
  | .mk _ isSpread value :: rest => do
    let p ← value.toParam isSpread
    .ok (p :: (← argsToParams rest))

/-- Reads expressions again as parameters. -/
def exprsToParams : List Expr → Except SyntaxError (List Param)
  | [] => .ok []
  | e :: rest => do
    let p ← e.toParam false
    .ok (p :: (← exprsToParams rest))

/-- A call of `async`, which turns out to be an arrow function when an arrow follows. -/
def asyncCall (g : Grammar) (ctx : Context) (async : Token) : Parser Expr := do
  let args ← arguments g ctx
  if (← peek).kind == .punct .arrow then
    arrowRest g async.span.start (← ofExcept (argsToParams args)) true
  else
    return .call (← since async.span.start) false (.ident async.span "async") args

/-- An identifier, or an arrow function whose only parameter it is. -/
def identifierOrArrow (g : Grammar) (t : Token) (next : Token) : Parser Expr := do
  let name ← nameOf t
  if next.kind == .punct .arrow then
    arrowRest g t.span.start [namedParam name t.span] false
  else return .ident t.span name

/-- An expression that begins with an identifier. -/
def identifierRule (g : Grammar) (ctx : Context) (t : Token) : Parser Expr := do
  let next ← peek
  if t.isWord "async" && !next.afterNewline then
    match next.kind with
    | .word .functionWord =>
      let _ ← consume
      functionExpression g t.span.start true
    | .identifier =>
      let (name, span) ← identifier
      arrowRest g t.span.start [namedParam name span] true
    | .punct .parenOpen => asyncCall g ctx t
    | _ => identifierOrArrow g t next
  else identifierOrArrow g t next

def joinByComma (first : Expr) (rest : List Expr) : Expr :=
  rest.foldl (fun left right => .comma (left.span.join right.span) left right) first

/-- What stands in parentheses that can begin an arrow function. -/
inductive ParenItem where
  | expr (e : Expr)
  | rest (p : Pattern)

def ParenItem.exprs : List ParenItem → List Expr
  | [] => []
  | .expr e :: items => e :: exprs items
  | .rest _ :: items => exprs items

/-- The parameters that take the remaining arguments among the items. -/
def ParenItem.rests : List ParenItem → List Param
  | [] => []
  | .expr _ :: items => rests items
  | .rest p :: items => Param.ofParts p true none :: rests items

/-- An item in parentheses; it has to be the last when it takes the remaining arguments. -/
def parenItem (g : Grammar) (ctx : Context) : Parser (ParenItem × Bool) := do
  if ← eat (.punct .ellipsis) then return (ParenItem.rest (← g.pattern ctx.allowIn), true)
  else return (ParenItem.expr (← g.assignment ctx.allowIn), false)

/-- A parenthesised expression or an arrow function, after the opening parenthesis. -/
def parenOrArrow (g : Grammar) (ctx : Context) (start : Nat) : Parser Expr := do
  let read ← items .parenClose (parenItem g ctx)
  let exprs := ParenItem.exprs read.items
  let rests := ParenItem.rests read.items
  if (← peek).kind == .punct .arrow then
    let params ← ofExcept (exprsToParams exprs)
    arrowRest g start (params ++ rests) false
  else
    match exprs, rests, read.trailingComma with
    | first :: others, [], false => return joinByComma first others
    | _, _, _ => failAt (.missing (.punct .arrow)) (← since start) none

/-- A turn of the elements of an array literal: the closing bracket, a hole, or another element. -/
def arrayTurn (g : Grammar) (ctx : Context) (read : List Element) :
    Parser (Turn (List Element) (List Element)) := do
  let t ← peekOperand
  match t.kind with
  | .punct .bracketClose =>
    let _ ← consume
    return .done read
  | .punct .comma =>
    let _ ← consume
    return .again (read ++ [.hole])
  | _ =>
    let element ←
      if t.kind == .punct .ellipsis then
        let _ ← consume
        pure (Element.spread (← g.assignment ctx))
      else pure (Element.item (← g.assignment ctx))
    afterItem .bracketClose (.again (read ++ [element])) (.done (read ++ [element]))

/-- The elements of an array literal up to its closing bracket, which is taken. -/
def arrayItems (g : Grammar) (ctx : Context) : Parser (List Element) :=
  loop (arrayTurn g ctx) []

/-- An array literal after its opening bracket. -/
def arrayLiteral (g : Grammar) (ctx : Context) (start : Nat) : Parser Expr := do
  let elements ← arrayItems g ctx.allowIn
  return .array (← since start) elements

def primary (g : Grammar) (ctx : Context) : Parser Expr := do
  let t ← consumeOperand
  match t.kind with
  | .identifier => identifierRule g ctx t
  | .word .thisWord => return .thisRef t.span
  | .word .superWord => return .superRef t.span
  | .word .nullWord => return .literal t.span .null
  | .word .trueWord => return .literal t.span (.bool true)
  | .word .falseWord => return .literal t.span (.bool false)
  | .number => return .literal t.span (.number t.text)
  | .bigInt => return .literal t.span (.bigInt t.text)
  | .regex => return .literal t.span (.regex t.text)
  | .string => return .literal t.span (.string (← stringOf t))
  | .templateWhole | .templateHead => templateExpression g ctx t none
  | .word .functionWord => functionExpression g t.span.start false
  | .word .classWord => classExpression g ctx t.span.start
  | .punct .parenOpen => parenOrArrow g ctx t.span.start
  | .punct .bracketOpen => arrayLiteral g ctx t.span.start
  | .punct .braceOpen => objectLiteral g ctx t.span.start
  | _ => unexpected t "expression"

/-- A construction or a primary expression. -/
def chainStart (g : Grammar) (ctx : Context) : Parser Expr := do
  if (← peekOperand).kind == .word .newWord then g.construction ctx else primary g ctx

/-- Members, calls and constructions. -/
def leftHandRule (g : Grammar) (ctx : Context) : Parser Expr := do
  chain g ctx true (← chainStart g ctx)

/-- A construction, or `new.target`.  The first argument list belongs to the construction. -/
def constructionRule (g : Grammar) (ctx : Context) : Parser Expr := do
  let start := (← consumeOperand).span.start
  if ← eat (.punct .dot) then
    let t ← consume
    if t.isWord "target" then return .newTarget (← since start) else unexpected t "`target`"
  else
    let callee ← chain g ctx false (← chainStart g ctx)
    let args ←
      if (← peek).kind == .punct .parenOpen then arguments g ctx else pure []
    return .construct (← since start) callee args

/-- The operator before an operand; `await` is one inside asynchronous functions. -/
def unaryOperator? (ctx : Context) (t : Token) : Option UnaryOperator :=
  match UnaryOperator.ofToken? t.kind with
  | some op => some op
  | none => if ctx.inAsync && t.isWord "await" then some .awaiting else none

/-- The operator after an operand, on the same line. -/
def stepOperator? (t : Token) : Option StepOperator :=
  if t.afterNewline then none else StepOperator.ofToken? t.kind

def unaryRule (g : Grammar) (ctx : Context) : Parser Expr := do
  let t ← peekOperand
  match unaryOperator? ctx t with
  | some op =>
    let _ ← consumeOperand
    let operand ← g.unary ctx
    return .unary (t.span.join operand.span) op operand
  | none =>
    let operand ← g.leftHand ctx
    let t ← peek
    match stepOperator? t with
    | none => return operand
    | some op =>
      let _ ← consume
      let target ← ofExcept (operand.toTarget false)
      return .step (target.span.join t.span) op target

/-- The operator that a token writes, when it binds tighter than a level and is allowed. -/
def binaryOperator? (ctx : Context) (level : Nat) (t : Token) : Option BinaryOperator :=
  (BinaryOperator.ofToken? t.kind).filter fun op =>
    level < op.precedence && !(ctx.noIn && op == .within)

/-- The level above which operators belong to the right operand. -/
def BinaryOperator.rightLevel (op : BinaryOperator) : Nat :=
  if op.isRightAssociative then op.precedence - 1 else op.precedence

/-- A turn of binary operators that bind tighter than a level: one with its right operand, if there is
one. -/
def binaryTurn (g : Grammar) (ctx : Context) (level : Nat) (left : Expr) : Parser (Turn Expr Expr) := do
  match binaryOperator? ctx level (← peek) with
  | none => return .done left
  | some op =>
    let _ ← consume
    let right ← g.binary ctx (BinaryOperator.rightLevel op)
    return .again (.binary (left.span.join right.span) op left right)

/-- Binary operators that bind tighter than a level. -/
def binaryRule (g : Grammar) (ctx : Context) (level : Nat) : Parser Expr := do
  let first ← g.unary ctx
  loop (binaryTurn g ctx level) first

/-- A binary expression, or a conditional one. -/
def conditional (g : Grammar) (ctx : Context) : Parser Expr := do
  let test ← g.binary ctx 0
  if ← eat (.punct .question) then
    let consequent ← g.assignment ctx.allowIn
    let _ ← require (.punct .colon)
    let alternate ← g.assignment ctx
    return .conditional (test.span.join alternate.span) test consequent alternate
  else return test

/-- Whether `yield` stands alone before a token that cannot begin an operand. -/
def endsYield (ctx : Context) (next : Token) : Bool :=
  next.afterNewline ||
    match next.kind with
    | .eof | .punct .semicolon | .punct .comma | .punct .colon | .punct .parenClose
    | .punct .bracketClose | .punct .braceClose => true
    | .word .inWord => ctx.noIn
    | _ => false

def yieldExpression (g : Grammar) (ctx : Context) : Parser Expr := do
  let start := (← consume).span.start
  let isDelegate ← eat (.punct .star)
  let next ← peekOperand
  let argument ←
    if !isDelegate && endsYield ctx next then pure none
    else pure (some (← g.assignment ctx))
  return .yield (← since start) isDelegate argument

/-- Assignments, which group to the right. -/
def assignmentRule (g : Grammar) (ctx : Context) : Parser Expr := do
  let t ← peekOperand
  if ctx.inGenerator && t.isWord "yield" then yieldExpression g ctx
  else
    let left ← conditional g ctx
    match AssignmentOperator.ofToken? (← peek).kind with
    | none => return left
    | some op =>
      let _ ← consume
      let target ← ofExcept (left.toTarget (op == .plain))
      let value ← g.assignment ctx
      return .assign (target.span.join value.span) op target value

end NameAudit.Parser
