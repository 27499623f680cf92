import NameAudit.Operator

/-!
The syntax tree of a JavaScript program.  Every node holds the span that it was read from; there is
no node for parentheses.  Patterns come in two guises: a declaring pattern binds names, and a
destructuring on the left of an assignment may also hold targets that are members.
-/
namespace NameAudit

/-- Literals.  Numbers and regular expressions keep their text; strings hold their decoded value. -/
inductive Literal where
  | bigInt (text : String)
  | bool (value : Bool)
  | null
  | number (text : String)
  | regex (text : String)
  | string (value : String)
  deriving DecidableEq, Inhabited, Repr

/-- How variables are declared. -/
inductive DeclarationMode where
  | var
  | letMode
  | const
  deriving DecidableEq, Inhabited, Repr

mutual

inductive Expr where
  | ident (span : Span) (name : String)
  | literal (span : Span) (value : Literal)
  | thisRef (span : Span)
  | superRef (span : Span)
  | newTarget (span : Span)
  | array (span : Span) (elements : List Element)
  | object (span : Span) (members : List Member)
  /-- A function expression or an arrow function; the name is visible inside it only. -/
  | func (span : Span) (name : Option String) (func : Func)
  | classExpr (span : Span) (name : Option String) (base : Option Expr) (members : List ClassMember)
  | template (span : Span) (tag : Option Expr) (substitutions : List Expr)
  /-- The name of a private member begins with `#`. -/
  | member (span : Span) (isOptional : Bool) (object : Expr) (name : String)
  | index (span : Span) (isOptional : Bool) (object key : Expr)
  | call (span : Span) (isOptional : Bool) (callee : Expr) (args : List Arg)
  | construct (span : Span) (callee : Expr) (args : List Arg)
  | unary (span : Span) (op : UnaryOperator) (operand : Expr)
  | step (span : Span) (op : StepOperator) (operand : Expr)
  | binary (span : Span) (op : BinaryOperator) (left right : Expr)
  | assign (span : Span) (op : AssignmentOperator) (target value : Expr)
  | comma (span : Span) (left right : Expr)
  | conditional (span : Span) (test consequent alternate : Expr)
  | yield (span : Span) (isDelegate : Bool) (argument : Option Expr)
  /-- A pattern as the target of an assignment. -/
  | destructuring (d : Destructuring)

/-- Patterns that take a value apart. -/
inductive Destructuring where
  | array (span : Span) (elements : List PatternElement) (rest : Option Pattern)
  | object (span : Span) (properties : List PatternProperty) (rest : Option Pattern)

inductive Pattern where
  | ident (span : Span) (name : String)
  | destructuring (d : Destructuring)
  /-- A member as the target of an assignment. -/
  | target (e : Expr)

inductive PatternElement where
  | hole
  | item (target : Pattern) (default : Option Expr)

/-- A property of an object pattern. -/
inductive PatternProperty where
  | mk (span : Span) (key : Key) (target : Pattern) (default : Option Expr)

inductive Element where
  | hole
  | item (e : Expr)
  | spread (e : Expr)

inductive Arg where
  | mk (span : Span) (isSpread : Bool) (value : Expr)

inductive Key where
  /-- An identifier, a string or a number, by its value. -/
  | direct (name : String)
  /-- A private name, with its `#`. -/
  | hidden (name : String)
  | computed (e : Expr)

/-- The value of a property. -/
inductive PropertyValue where
  | getter (f : Func)
  | setter (f : Func)
  | method (f : Func)
  /-- Only a field of a class can lack its value. -/
  | value (e : Option Expr)

/-- A member of an object literal. -/
inductive Member where
  | property (span : Span) (key : Key) (value : PropertyValue)
  | shorthand (span : Span) (name : String) (nameSpan : Span)
  | spread (span : Span) (e : Expr)

inductive ClassMember where
  | property (span : Span) (isStatic : Bool) (key : Key) (value : PropertyValue)
  /-- Statements that run once, when the class is defined. -/
  | staticBlock (span : Span) (body : List Stmt)

/-- Parameters and body of a function. -/
inductive Func where
  | mk (span : Span) (isArrow isAsync isGenerator : Bool) (params : List Param) (body : Body)

/-- The body of a function; only an arrow function can have an expression. -/
inductive Body where
  | block (body : List Stmt)
  | expr (e : Expr)

inductive Param where
  | mk (span : Span) (isRest : Bool) (pattern : Pattern) (default : Option Expr)

/-- A statement with the documentation comment directly before it. -/
inductive Stmt where
  | mk (span : Span) (doc : Option DocComment) (form : StmtForm)

inductive StmtForm where
  | block (body : List Stmt)
  | breakTo (label : Option String)
  | continueTo (label : Option String)
  | classDecl (name : String) (nameSpan : Span) (base : Option Expr) (members : List ClassMember)
  | debugger
  | doLoop (body : Stmt) (condition : Expr)
  | empty
  | expr (e : Expr)
  /-- A loop over keys, or over elements when `isOf` holds. -/
  | forEach (isOf isAwait : Bool) (head : ForHead) (subject : Expr) (body : Stmt)
  | forLoop (init : ForInit) (condition update : Option Expr) (body : Stmt)
  | funcDecl (name : String) (nameSpan : Span) (func : Func)
  | conditional (test : Expr) (consequent : Stmt) (alternate : Option Stmt)
  | labelled (name : String) (body : Stmt)
  | returns (value : Option Expr)
  | switch (subject : Expr) (branches : List Branch)
  | throws (value : Expr)
  /-- At least one of handler and finalizer is present. -/
  | attempt (body : Block) (handler : Option Handler) (finalizer : Option Block)
  | vars (mode : DeclarationMode) (declarators : List Declarator)
  | whileLoop (condition : Expr) (body : Stmt)
  | scoped (object : Expr) (body : Stmt)

/-- A declared pattern and its first value. -/
inductive Declarator where
  | mk (pattern : Pattern) (value : Option Expr)

/-- What a loop of three parts begins with. -/
inductive ForInit where
  | nothing
  | expr (e : Expr)
  | vars (span : Span) (mode : DeclarationMode) (declarators : List Declarator)

/-- What a loop over keys or elements assigns. -/
inductive ForHead where
  | target (e : Expr)
  | declares (mode : DeclarationMode) (pattern : Pattern)

/-- A branch of a switch; the default branch has no test. -/
inductive Branch where
  | mk (span : Span) (test : Option Expr) (body : List Stmt)

/-- The `catch` of a `try`. -/
inductive Handler where
  | mk (span : Span) (param : Option Pattern) (body : List Stmt)

/-- Statements in braces. -/
inductive Block where
  | mk (span : Span) (body : List Stmt)

end

/-- A program text, with the comment that describes the file. -/
structure Script where
  span : Span
  doc : Option DocComment
  body : List Stmt

instance : Inhabited Expr := ⟨.thisRef default⟩
instance : Inhabited Pattern := ⟨.ident default default⟩
instance : Inhabited Stmt := ⟨.mk default none .empty⟩

def Destructuring.span : Destructuring → Span
  | array s _ _ => s
  | object s _ _ => s

def Expr.span : Expr → Span
  | ident s _ => s
  | literal s _ => s
  | thisRef s => s
  | superRef s => s
  | newTarget s => s
  | array s _ => s
  | object s _ => s
  | func s _ _ => s
  | classExpr s _ _ _ => s
  | template s _ _ => s
  | member s _ _ _ => s
  | index s _ _ _ => s
  | call s _ _ _ => s
  | construct s _ _ => s
  | unary s _ _ => s
  | step s _ _ => s
  | binary s _ _ _ => s
  | assign s _ _ _ => s
  | comma s _ _ => s
  | conditional s _ _ _ => s
  | yield s _ _ => s
  | destructuring d => d.span

def Pattern.span : Pattern → Span
  | ident s _ => s
  | destructuring d => d.span
  | target e => e.span

def Stmt.span : Stmt → Span
  | mk s _ _ => s

/-- The comment directly before a statement. -/
def Stmt.doc : Stmt → Option DocComment
  | mk _ d _ => d

def Func.span : Func → Span
  | mk s _ _ _ _ _ => s

/-- The name of a property when it is known without evaluation. -/
def Key.directName? : Key → Option String
  | direct name => some name
  | hidden _ => none
  | computed _ => none

/-- Private names begin with `#`. -/
def isPrivateName (name : String) : Bool := name.toList.head? == some '#'

end NameAudit
