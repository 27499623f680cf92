import NameAudit.Tree

/-!
Local scopes.  A name is global at a position when no scope around the position binds it.
-/
namespace NameAudit

mutual

/-- The identifiers that a pattern binds, in the order of the text. -/
def Pattern.names : Pattern → List String
  | .ident _ name => [name]
  | .destructuring d => d.names
  | .target _ => []

def Destructuring.names : Destructuring → List String
  | .array _ elements rest => PatternElement.namesOf elements ++ Pattern.namesOfRest rest
  | .object _ properties rest => PatternProperty.namesOf properties ++ Pattern.namesOfRest rest

def PatternElement.namesOf : List PatternElement → List String
  | [] => []
  | .hole :: es => PatternElement.namesOf es
  | .item target _ :: es => target.names ++ PatternElement.namesOf es

def PatternProperty.namesOf : List PatternProperty → List String
  | [] => []
  | .mk _ _ target _ :: ps => target.names ++ PatternProperty.namesOf ps

/-- The identifiers that the rest of a pattern binds. -/
def Pattern.namesOfRest : Option Pattern → List String
  | none => []
  | some p => p.names

end

def Declarator.namesOf : List Declarator → List String
  | [] => []
  | .mk p _ :: ds => p.names ++ Declarator.namesOf ds

def Param.namesOf : List Param → List String
  | [] => []
  | .mk _ _ p _ :: ps => p.names ++ Param.namesOf ps

/-- The identifiers that a declaration binds in the block around it; `var` binds none there. -/
def blockNames (mode : DeclarationMode) (names : List String) : List String :=
  if mode = .var then [] else names

/-- The identifiers that the head of a loop over keys or elements binds in the loop. -/
def ForHead.blockNames : ForHead → List String
  | .target _ => []
  | .declares mode p => NameAudit.blockNames mode p.names

/-- The identifiers that the first part of a loop binds in the loop. -/
def ForInit.blockNames : ForInit → List String
  | .vars _ mode ds => NameAudit.blockNames mode (Declarator.namesOf ds)
  | _ => []

/-- What `let`, `const` and `class` declare directly in a block. -/
def Stmt.lexicalNames : List Stmt → List String
  | [] => []
  | .mk _ _ (.vars mode ds) :: ss => blockNames mode (Declarator.namesOf ds) ++ lexicalNames ss
  | .mk _ _ (.classDecl name _ _ _) :: ss => name :: lexicalNames ss
  | _ :: ss => lexicalNames ss

/-- What is declared directly in the branches of a switch, which form one block. -/
def Branch.lexicalNames : List Branch → List String
  | [] => []
  | .mk _ _ body :: bs => Stmt.lexicalNames body ++ Branch.lexicalNames bs

/-- The identifiers that the head of a loop over keys or elements declares. -/
def ForHead.declaredNames : ForHead → List String
  | .target _ => []
  | .declares _ p => p.names

/-- The identifiers that the first part of a loop declares. -/
def ForInit.declaredNames : ForInit → List String
  | .vars _ _ ds => Declarator.namesOf ds
  | _ => []

mutual

/-- Everything that a statement declares, at any depth.  Functions and static blocks keep what they
declare to themselves, so nothing in an expression counts. -/
def Stmt.declaredNames : Stmt → List String
  | .mk _ _ form => form.declaredNames

def StmtForm.declaredNames : StmtForm → List String
  | .block body => Stmt.declaredNamesOf body
  | .classDecl name _ _ _ => [name]
  | .doLoop body _ => body.declaredNames
  | .forEach _ _ head _ body => head.declaredNames ++ body.declaredNames
  | .forLoop init _ _ body => init.declaredNames ++ body.declaredNames
  | .funcDecl name _ _ => [name]
  | .conditional _ consequent alternate =>
    consequent.declaredNames ++ Stmt.declaredNamesOfOption alternate
  | .labelled _ body => body.declaredNames
  | .switch _ branches => Branch.declaredNamesOf branches
  | .attempt body handler finalizer =>
    body.declaredNames ++ Handler.declaredNamesOfOption handler ++
      Block.declaredNamesOfOption finalizer
  | .vars _ ds => Declarator.namesOf ds
  | .whileLoop _ body => body.declaredNames
  | .scoped _ body => body.declaredNames
  | .breakTo _ | .continueTo _ | .debugger | .empty | .expr _ | .returns _ | .throws _ => []

def Stmt.declaredNamesOf : List Stmt → List String
  | [] => []
  | s :: ss => s.declaredNames ++ Stmt.declaredNamesOf ss

def Stmt.declaredNamesOfOption : Option Stmt → List String
  | none => []
  | some s => s.declaredNames

def Branch.declaredNamesOf : List Branch → List String
  | [] => []
  | .mk _ _ body :: bs => Stmt.declaredNamesOf body ++ Branch.declaredNamesOf bs

def Block.declaredNames : Block → List String
  | .mk _ body => Stmt.declaredNamesOf body

def Block.declaredNamesOfOption : Option Block → List String
  | none => []
  | some b => b.declaredNames

/-- Everything that a handler declares, what it catches included. -/
def Handler.declaredNamesOfOption : Option Handler → List String
  | none => []
  | some (.mk _ param body) => Pattern.namesOfRest param ++ Stmt.declaredNamesOf body

end

/-- What a function binds besides its parameters and its own name. -/
def Body.declaredNames : Body → List String
  | .block body => Stmt.declaredNamesOf body
  | .expr _ => []

/-- A local scope: a block, or the inside of a function. -/
structure Scope where
  isFunction : Bool
  names : List String
  deriving DecidableEq, Inhabited, Repr

namespace Scope

/-- Whether some scope is the inside of a function. -/
def inFunction (scopes : List Scope) : Bool := scopes.any (·.isFunction)

/-- Whether no scope binds a name. -/
def isGlobal (scopes : List Scope) (name : String) : Bool :=
  !scopes.any fun s => s.names.contains name

end Scope
end NameAudit
