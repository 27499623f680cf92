import NameAudit.Parser.Grammar

/-!
Patterns that declare names, parameters, functions, and the members of objects and classes.
-/
namespace NameAudit.Parser

/-- A turn of the elements of an array pattern: the closing bracket, a hole, what takes the remaining
elements, or another element. -/
def arrayPatternTurn (g : Grammar) (ctx : Context) (read : List PatternElement) :
    Parser (Turn (List PatternElement) (List PatternElement × Option Pattern)) := do
  let t ← peek
  match t.kind with
  | .punct .bracketClose => return .done (read, none)
  | .punct .comma =>
    let _ ← consume
    return .again (read ++ [.hole])
  | .punct .ellipsis =>
    let _ ← consume
    return .done (read, some (← g.pattern ctx))
  | _ =>
    let target ← g.pattern ctx
    let default ← initializer g ctx.allowIn
    let read := read ++ [.item target default]
    if ← eat (.punct .comma) then return .again read else return .done (read, none)

/-- The elements of an array pattern and what takes the remaining ones, up to the closing
bracket. -/
def arrayPatternItems (g : Grammar) (ctx : Context) :
    Parser (List PatternElement × Option Pattern) :=
  loop (arrayPatternTurn g ctx) []

def arrayPattern (g : Grammar) (ctx : Context) : Parser Pattern := do
  let start := (← require (.punct .bracketOpen)).span.start
  let (elements, rest) ← arrayPatternItems g ctx
  let _ ← require (.punct .bracketClose)
  return .destructuring (.array (← since start) elements rest)

/-- The key and the target of a property in an object pattern; an identifier can stand for both. -/
def patternEntry (g : Grammar) (ctx : Context) (t : Token) : Parser (Key × Pattern) := do
  if t.kind == .identifier then
    let (name, span) ← identifier
    if ← eat (.punct .colon) then return (.direct name, ← g.pattern ctx)
    else return (.direct name, .ident span name)
  else
    let k ← key g ctx false
    let _ ← require (.punct .colon)
    return (k, ← g.pattern ctx)

/-- A turn of the properties of an object pattern: the closing brace, what takes the remaining
properties, or another property. -/
def objectPatternTurn (g : Grammar) (ctx : Context) (read : List PatternProperty) :
    Parser (Turn (List PatternProperty) (List PatternProperty × Option Pattern)) := do
  if (← peek).kind == .punct .braceClose then return .done (read, none)
  else if ← eat (.punct .ellipsis) then return .done (read, some (← g.pattern ctx))
  else
    let t ← peek
    let (k, target) ← patternEntry g ctx t
    let default ← initializer g ctx.allowIn
    let read := read ++ [.mk (← since t.span.start) k target default]
    if ← eat (.punct .comma) then return .again read else return .done (read, none)

/-- The properties of an object pattern and what takes the remaining ones, up to the closing
brace. -/
def objectPatternItems (g : Grammar) (ctx : Context) :
    Parser (List PatternProperty × Option Pattern) :=
  loop (objectPatternTurn g ctx) []

def objectPattern (g : Grammar) (ctx : Context) : Parser Pattern := do
  let start := (← require (.punct .braceOpen)).span.start
  let (properties, rest) ← objectPatternItems g ctx
  let _ ← require (.punct .braceClose)
  return .destructuring (.object (← since start) properties rest)

/-- A pattern that declares names. -/
def patternRule (g : Grammar) (ctx : Context) : Parser Pattern := do
  let t ← peek
  match t.kind with
  | .identifier =>
    let (name, span) ← identifier
    return .ident span name
  | .punct .bracketOpen => arrayPattern g ctx
  | .punct .braceOpen => objectPattern g ctx
  | _ => unexpected t "pattern"

/-- A parameter; it has to be the last when it takes the remaining arguments. -/
def parameter (g : Grammar) (ctx : Context) : Parser (Param × Bool) := do
  if ← eat (.punct .ellipsis) then
    return (Param.ofParts (← g.pattern ctx) true none, true)
  else
    let p ← g.pattern ctx
    return (Param.ofParts p false (← initializer g ctx), false)

def parameters (g : Grammar) (ctx : Context) : Parser (List Param) := do
  let _ ← require (.punct .parenOpen)
  let read ← items .parenClose (parameter g ctx)
  return read.items

/-- Parameters and body of a function that is not an arrow. -/
def functionRest (g : Grammar) (start : Nat) (isAsync isGenerator : Bool) : Parser Func := do
  let ctx := Context.function isAsync isGenerator
  let params ← parameters g ctx
  let body ← braced g ctx
  return .mk (← since start) false isAsync isGenerator params (.block body)

/-- The arrow and the body of an arrow function. -/
def arrowRest (g : Grammar) (start : Nat) (params : List Param) (isAsync : Bool) :
    Parser Expr := do
  let arrow ← require (.punct .arrow)
  if arrow.afterNewline then failAt .newlineBeforeArrow arrow.span none
  else
    let ctx := Context.function isAsync false
    let body ←
      if (← peek).kind == .punct .braceOpen then pure (Body.block (← braced g ctx))
      else pure (Body.expr (← g.assignment ctx))
    let span ← since start
    return .func span none (.mk span true isAsync false params body)

/-- A function expression after its keyword. -/
def functionExpression (g : Grammar) (start : Nat) (isAsync : Bool) : Parser Expr := do
  let isGenerator ← eat (.punct .star)
  let name ← optionalIdentifier
  let f ← functionRest g start isAsync isGenerator
  return .func f.span name f

/-- How an accessor accesses. -/
inductive Access where
  | get
  | set
  deriving DecidableEq, Inhabited, Repr

/-- The words and signs before the key of a member. -/
structure Modifiers where
  isStatic : Bool := false
  isAsync : Bool := false
  isGenerator : Bool := false
  access : Option Access := none
  deriving DecidableEq, Inhabited, Repr

def Modifiers.needMethod (m : Modifiers) : Bool := m.isAsync || m.isGenerator || m.access.isSome

def Modifiers.any (m : Modifiers) : Bool := m.isStatic || m.needMethod

/-- Whether a token can begin the key of a member. -/
def startsKey (t : Token) (inClass : Bool) : Bool :=
  t.kind.isIdentifierName || t.kind == .string || t.kind == .number || t.kind == .bigInt ||
    t.kind == .punct .bracketOpen || (inClass && t.kind == .privateName)

/-- Takes a word as a modifier, which it is when a key follows, or a star where that is allowed.
Otherwise the word is the key itself. -/
def modifier (w : String) (inClass star : Bool) : Parser Bool := do
  if (← peek).isWord w then
    let next ← peekSecond
    if startsKey next inClass || (star && next.kind == .punct .star) then
      let _ ← consume
      return true
    else return false
  else return false

/-- Takes `async` as a modifier, unless a line break follows it. -/
def asyncModifier (inClass : Bool) : Parser Bool := do
  if (← peek).isWord "async" then
    if (← peekSecond).afterNewline then return false
    else modifier "async" inClass true
  else return false

/-- Takes `get` or `set` as a modifier. -/
def accessModifier (inClass : Bool) : Parser (Option Access) := do
  if ← modifier "get" inClass false then return some .get
  else if ← modifier "set" inClass false then return some .set
  else return none

def modifiers (inClass : Bool) : Parser Modifiers := do
  let isStatic ← if inClass then modifier "static" inClass true else pure false
  let isAsync ← asyncModifier inClass
  let access ← if isAsync then pure none else accessModifier inClass
  let isGenerator ← if access.isNone then eat (.punct .star) else pure false
  return ⟨isStatic, isAsync, isGenerator, access⟩

/-- A method or accessor after its key. -/
def method (g : Grammar) (m : Modifiers) : Parser PropertyValue := do
  let start := (← peek).span.start
  let f ← functionRest g start m.isAsync m.isGenerator
  match m.access with
  | some .get => return .getter f
  | some .set => return .setter f
  | none => return .method f

/-- The value of a property of an object literal that is written `name = value`.  It is valid only
as a target, and is kept as an assignment. -/
def defaultedValue (keyToken : Token) (name : String) (value : Expr) : Expr :=
  .assign (keyToken.span.join value.span) .plain (.ident keyToken.span name) value

/-- A member of an object literal from its key token on. -/
def memberRest (g : Grammar) (ctx : Context) (start : Nat) (m : Modifiers) (keyToken : Token)
    (k : Key) : Parser Member := do
  let next ← peek
  match next.kind with
  | .punct .parenOpen =>
    let value ← method g m
    return .property (← since start) k value
  | .punct .colon =>
    if m.any then unexpected next "`:`"
    else
      let _ ← consume
      let value ← g.assignment ctx
      return .property (← since start) k (.value (some value))
  | .punct .assign =>
    match m.any || keyToken.kind != .identifier, k.directName? with
    | false, some name =>
      let _ ← consume
      let value ← g.assignment ctx
      return .property (← since start) k (.value (some (defaultedValue keyToken name value)))
    | _, _ => unexpected next "`:`"
  | .punct .comma | .punct .braceClose =>
    match m.any || keyToken.kind != .identifier, k.directName? with
    | false, some name => return .shorthand (← since start) name keyToken.span
    | _, _ => unexpected next "`:`"
  | _ => unexpected next "`:`"

def member (g : Grammar) (ctx : Context) : Parser Member := do
  let start := (← peek).span.start
  if ← eat (.punct .ellipsis) then
    let e ← g.assignment ctx
    return .spread (← since start) e
  else
    let m ← modifiers false
    let keyToken ← peek
    let k ← key g ctx false
    memberRest g ctx start m keyToken k

/-- An object literal after its opening brace. -/
def objectLiteral (g : Grammar) (ctx : Context) (start : Nat) : Parser Expr := do
  let members ← itemsOf .braceClose (member g ctx.allowIn)
  return .object (← since start) members

/-- The value of a field, which is found as in a method. -/
def field (g : Grammar) : Parser PropertyValue := do
  let value ← initializer g (.function false false)
  semicolon
  return .value value

/-- A member of a class other than a static block. -/
def classMember (g : Grammar) : Parser ClassMember := do
  let start := (← peek).span.start
  let m ← modifiers true
  let k ← key g {} true
  let next ← peek
  let value ←
    if next.kind == .punct .parenOpen then method g m
    else if m.needMethod then unexpected next "`(`"
    else field g
  return .property (← since start) m.isStatic k value

def staticBlock (g : Grammar) : Parser ClassMember := do
  let start := (← consume).span.start
  let body ← braced g (.function false false)
  return .staticBlock (← since start) body

def startsStaticBlock (t : Token) : Parser Bool := do
  if t.isWord "static" then return (← peekSecond).kind == .punct .braceOpen
  else return false

/-- A turn of the members of a class: the closing brace, a semicolon, or another member. -/
def classMembersTurn (g : Grammar) (read : List ClassMember) :
    Parser (Turn (List ClassMember) (List ClassMember)) := do
  let t ← peek
  if t.kind == .punct .braceClose then return .done read
  else if t.kind == .punct .semicolon then
    let _ ← consume
    return .again read
  else if ← startsStaticBlock t then return .again (read ++ [← staticBlock g])
  else return .again (read ++ [← classMember g])

/-- The members of a class up to the closing brace. -/
def classMembers (g : Grammar) : Parser (List ClassMember) :=
  loop (classMembersTurn g) []

/-- The base and the members of a class. -/
def classRest (g : Grammar) (ctx : Context) : Parser (Option Expr × List ClassMember) := do
  let base ←
    if ← eat (.word .extendsWord) then pure (some (← g.leftHand ctx)) else pure none
  let _ ← require (.punct .braceOpen)
  let members ← classMembers g
  let _ ← require (.punct .braceClose)
  return (base, members)

/-- A class expression after its keyword. -/
def classExpression (g : Grammar) (ctx : Context) (start : Nat) : Parser Expr := do
  let name ← optionalIdentifier
  let (base, members) ← classRest g ctx
  return .classExpr (← since start) name base members

end NameAudit.Parser
