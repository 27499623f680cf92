import NameAudit.Namespace.Record

/-!
The walk over a program in the order of evaluation.  Each expression is walked with the use that is
made of it, which becomes the type of the reference when the expression is a qualified name.
-/
namespace NameAudit

/-- What is done with an expression. -/
inductive Use where
  /-- It is read, in this way. -/
  | read (type : RefType)
  /-- It becomes the value of a name, if that is known. -/
  | value (target : Option NameId)
  /-- It is assigned something that is not known. -/
  | write
  deriving DecidableEq, Inhabited, Repr

namespace Use

/-- The type of a reference that is used in this way, when it is not written. -/
def type : Use → RefType
  | read t => t
  | value _ => .aliasingGet
  | write => .get

/-- The name that takes the value. -/
def target : Use → Option NameId
  | value t => t
  | _ => none

end Use

namespace Record

/-- Records a chain as it is used. -/
def useName (chain : Chain) (span : Span) (use : Use) : Record Unit := do
  match use with
  | .read t =>
    let _ ← useChain chain t span .none
  | .value target =>
    let source ← useChain chain .aliasingGet span .none
    link target source
  | .write =>
    if chain.certain.isNone && (← isGlobal chain.path.root) then
      let _ ← assignPath chain.path span .other
    else
      let _ ← useChain chain .get span .none

/-- Notes what a class extends. -/
def extend (target parent : Option NameId) : Record Unit := do
  match target with
  | some t =>
    modifyName t fun n =>
      { n with superclass := some (match parent with | some p => .known p | none => .unknown) }
  | none => pure ()

/-- Records the call of a callee, and how its arguments are used: as they are when the call is the
inheritance of one name from another, and otherwise they can be reached through the callee. -/
def argumentUse (callee : Expr) (args : List Arg) : Record (Use × Record Unit) := do
  match ← inheritance? callee args with
  | some (child, parent) => return (.read .get, inherit child parent)
  | none => return (.read .aliasingGet, pure ())

end Record

open Record

mutual

def Expr.walk : Expr → Use → Record Unit
  | .ident span name, use => useName ⟨⟨name, []⟩, none⟩ span use
  | .member span isOptional owner name, use =>
    match (Expr.member span isOptional owner name).chain? with
    | some chain => useName chain span use
    | none => owner.walk (.read .get)
  | .index _ _ owner key, .write => do
    hideMembers (← useChainOr owner .get (owner.walk (.read .get)))
    key.walk (.read .get)
  | .index _ _ owner key, _ => do
    owner.walk (.read .get)
    key.walk (.read .get)
  | .call _ _ callee args, _ => do
    let _ ← useChainOr callee .call (callee.walk (.read .get))
    let (use, after) ← argumentUse callee args
    Arg.walkAll use args
    after
  | .construct _ callee args, _ => do
    let _ ← useChainOr callee .construct (callee.walk (.read .get))
    Arg.walkAll (.read .aliasingGet) args
  | .unary _ op operand, _ =>
    match op with
    | .delete => operand.walk (.read .delete)
    | .awaiting => operand.walk (.read .aliasingGet)
    | _ => operand.walk (.read .get)
  | .step _ _ operand, _ => operand.walk (.read .get)
  | .yield _ _ argument, _ => Expr.walkOption (.read .aliasingGet) argument
  | .assign _ .plain target value, _ => do
    match ← globalPath? target with
    | some path =>
      let name ← assignPath path target.span (valueKind value false)
      prototypeLiteral path value
      value.walk (.value name)
    | none =>
      target.walk .write
      value.walk (.value none)
  | .assign _ _ target value, _ => do
    target.walk (.read .get)
    value.walk (.read .aliasingGet)
  | .binary _ op left right, use => do
    if op.isSelection then
      left.walk (.read use.type)
      right.walk (.read use.type)
    else
      left.walk (.read .get)
      right.walk (.read .get)
  | .comma _ left right, use => do
    left.walk (.read .get)
    right.walk (.read use.type)
  | .conditional _ test consequent alternate, use => do
    test.walk (.read .get)
    consequent.walk (.read use.type)
    alternate.walk (.read use.type)
  | .func _ name f, _ => f.walk name
  | .classExpr _ name base members, use => do
    Expr.walkBase use.target base
    inBlock name.toList (ClassMember.walkAll use.target members)
  | .array _ elements, _ => Element.walkAll elements
  | .object _ members, use => Member.walkAll use.target members
  | .template _ (some tag) substitutions, _ => do
    let _ ← useChainOr tag .call (tag.walk (.read .get))
    Expr.walkAll (.read .aliasingGet) substitutions
  | .template _ none substitutions, _ => Expr.walkAll (.read .get) substitutions
  | .destructuring d, _ => d.walk
  | .literal _ _, _ => pure ()
  | .thisRef _, _ => pure ()
  | .superRef _, _ => pure ()
  | .newTarget _, _ => pure ()

def Expr.walkAll (use : Use) : List Expr → Record Unit
  | [] => pure ()
  | e :: es => do
    e.walk use
    Expr.walkAll use es

def Expr.walkOption (use : Use) : Option Expr → Record Unit
  | none => pure ()
  | some e => e.walk use

/-- Walks what a class extends, and notes it with the class. -/
def Expr.walkBase (target : Option NameId) : Option Expr → Record Unit
  | none => pure ()
  | some e => do
    extend target (← useChainOr e .get (e.walk (.read .get)))

/-- Walks a key; one that is computed hides the members of its owner. -/
def Key.walk (owner : Option NameId) : Key → Record Unit
  | .direct _ => pure ()
  | .hidden _ => pure ()
  | .computed e => do
    hideMembers owner
    e.walk (.read .get)

def Element.walkAll : List Element → Record Unit
  | [] => pure ()
  | .hole :: es => Element.walkAll es
  | .item e :: es => do
    e.walk (.read .aliasingGet)
    Element.walkAll es
  | .spread e :: es => do
    e.walk (.read .aliasingGet)
    Element.walkAll es

def Arg.walkAll (use : Use) : List Arg → Record Unit
  | [] => pure ()
  | .mk _ _ value :: as => do
    value.walk use
    Arg.walkAll use as

/-- Walks the members of an object literal, which is the value of a name if that is known. -/
def Member.walkAll (target : Option NameId) : List Member → Record Unit
  | [] => pure ()
  | .property span key value :: ms => do
    key.walk target
    value.walk (← childOf target key.directName?) span
    Member.walkAll target ms
  | .shorthand _ name nameSpan :: ms => do
    let c ← childOf target (some name)
    setKnown c .other nameSpan
    abbreviate c (← useChain ⟨⟨name, []⟩, none⟩ .aliasingGet nameSpan .none)
    Member.walkAll target ms
  | .spread _ e :: ms => do
    hideMembers target
    e.walk (.read .aliasingGet)
    Member.walkAll target ms

/-- Walks the value of a member, which is set on a name if that is known. -/
def PropertyValue.walk (name : Option NameId) (span : Span) : PropertyValue → Record Unit
  | .getter f => do
    setKnown name .getter span
    f.walk none
  | .setter f => do
    setKnown name .setter span
    f.walk none
  | .method f => do
    setKnown name .func span
    f.walk none
  | .value (some e) => do
    setKnown name (valueKind e false) span
    e.walk (.value name)
  | .value none => setKnown name .other span

/-- Walks the value of a member of the instances of a class.  A field is evaluated when an instance
is constructed. -/
def PropertyValue.walkInstance : PropertyValue → Record Unit
  | .getter f => f.walk none
  | .setter f => f.walk none
  | .method f => f.walk none
  | .value (some e) => inFunction [] (e.walk (.read .aliasingGet))
  | .value none => pure ()

/-- Walks the members of a class, which is the value of a name if that is known.  Static members are
members of that name. -/
def ClassMember.walkAll (target : Option NameId) : List ClassMember → Record Unit
  | [] => pure ()
  | .property span true key value :: ms => do
    key.walk target
    value.walk (← childOf target key.directName?) span
    ClassMember.walkAll target ms
  | .property _ false key value :: ms => do
    key.walk none
    value.walkInstance
    ClassMember.walkAll target ms
  | .staticBlock _ body :: ms => do
    inFunction (Stmt.declaredNamesOf body) (afterFunctions body (Stmt.walkAll body))
    ClassMember.walkAll target ms

/-- Walks a function, which can have a name of its own. -/
def Func.walk (ownName : Option String) : Func → Record Unit
  | .mk _ _ _ _ params body =>
    inFunction (Param.namesOf params ++ body.declaredNames ++ ownName.toList) <|
      withoutMark do
        Param.walkAll params
        body.walk

def Body.walk : Body → Record Unit
  | .block body => afterFunctions body (Stmt.walkAll body)
  | .expr e => e.walk (.read .aliasingGet)

def Param.walkAll : List Param → Record Unit
  | [] => pure ()
  | .mk _ _ p default :: ps => do
    p.walk
    Expr.walkOption (.read .aliasingGet) default
    Param.walkAll ps

/-- Walks a pattern, whose names and targets are set. -/
def Pattern.walk : Pattern → Record Unit
  | .ident span name => do
    let _ ← declare name .other span
  | .destructuring d => d.walk
  | .target e => e.walk .write

/-- Walks what takes the rest of a pattern. -/
def Pattern.walkOption : Option Pattern → Record Unit
  | none => pure ()
  | some p => p.walk

def Destructuring.walk : Destructuring → Record Unit
  | .array _ elements rest => do
    PatternElement.walkAll elements
    Pattern.walkOption rest
  | .object _ properties rest => do
    PatternProperty.walkAll properties
    Pattern.walkOption rest

def PatternElement.walkAll : List PatternElement → Record Unit
  | [] => pure ()
  | .hole :: es => PatternElement.walkAll es
  | .item target default :: es => do
    target.walk
    Expr.walkOption (.read .aliasingGet) default
    PatternElement.walkAll es

def PatternProperty.walkAll : List PatternProperty → Record Unit
  | [] => pure ()
  | .mk _ key target default :: ps => do
    key.walk none
    target.walk
    Expr.walkOption (.read .aliasingGet) default
    PatternProperty.walkAll ps

/-- Walks a statement under its comment. -/
def Stmt.walk : Stmt → Record Unit
  | .mk _ doc form =>
    underDoc doc (markingType (declaresType doc) (form.walk doc.isSome))

/-- Walks statements one after the other. -/
def Stmt.walkAll : List Stmt → Record Unit
  | [] => pure ()
  | s :: ss => do
    s.walk
    Stmt.walkAll ss

def Stmt.walkOption : Option Stmt → Record Unit
  | none => pure ()
  | some s => s.walk

/-- Walks a form of statement, with or without a comment before it. -/
def StmtForm.walk (hasDoc : Bool) : StmtForm → Record Unit
  | .block body => inBlock (Stmt.lexicalNames body) (afterFunctions body (Stmt.walkAll body))
  | .classDecl name nameSpan base members => do
    let target ← declare name .classDef nameSpan
    Expr.walkBase target base
    inBlock [] (ClassMember.walkAll target members)
  | .doLoop body condition => do
    body.walk
    condition.walk (.read .get)
  | .expr e =>
    match e.path? with
    | some path => barePath path e.span hasDoc
    | none => e.walk (.read .get)
  | .forEach _ _ head subject body =>
    inBlock head.blockNames do
      subject.walk (.read .get)
      head.walk
      body.walk
  | .forLoop init condition update body =>
    inBlock init.blockNames do
      init.walk
      Expr.walkOption (.read .get) condition
      body.walk
      Expr.walkOption (.read .get) update
  | .funcDecl _ _ f => f.walk none
  | .conditional test consequent alternate => do
    test.walk (.read .get)
    consequent.walk
    Stmt.walkOption alternate
  | .labelled _ body => body.walk
  | .returns value => Expr.walkOption (.read .aliasingGet) value
  | .switch subject branches => do
    subject.walk (.read .get)
    inBlock (Branch.lexicalNames branches) (Branch.walkAll branches)
  | .throws value => value.walk (.read .aliasingGet)
  | .attempt body handler finalizer => do
    body.walk
    Handler.walkOption handler
    Block.walkOption finalizer
  | .vars _ declarators => Declarator.walkAll declarators
  | .whileLoop condition body => do
    condition.walk (.read .get)
    body.walk
  | .scoped owner body => do
    owner.walk (.read .get)
    body.walk
  | .breakTo _ => pure ()
  | .continueTo _ => pure ()
  | .debugger => pure ()
  | .empty => pure ()

def Declarator.walkAll : List Declarator → Record Unit
  | [] => pure ()
  | .mk (.ident span name) (some value) :: ds => do
    let target ← declare name (valueKind value true) span
    value.walk (.value target)
    Declarator.walkAll ds
  | .mk (.ident span name) none :: ds => do
    let _ ← declare name .var span
    Declarator.walkAll ds
  | .mk p value :: ds => do
    p.walk
    Expr.walkOption (.read .aliasingGet) value
    Declarator.walkAll ds

def ForInit.walk : ForInit → Record Unit
  | .nothing => pure ()
  | .expr e => e.walk (.read .get)
  | .vars _ _ declarators => Declarator.walkAll declarators

/-- Walks what a loop over keys or elements assigns. -/
def ForHead.walk : ForHead → Record Unit
  | .target e => e.walk .write
  | .declares _ p => p.walk

def Branch.walkAll : List Branch → Record Unit
  | [] => pure ()
  | .mk _ test body :: bs => do
    Expr.walkOption (.read .get) test
    afterFunctions body (Stmt.walkAll body)
    Branch.walkAll bs

/-- Walks a handler.  What it catches and what its body declares share a block. -/
def Handler.walkOption : Option Handler → Record Unit
  | none => pure ()
  | some (.mk _ param body) =>
    inBlock (Pattern.namesOfRest param ++ Stmt.lexicalNames body) do
      Pattern.walkOption param
      afterFunctions body (Stmt.walkAll body)

def Block.walk : Block → Record Unit
  | .mk _ body => inBlock (Stmt.lexicalNames body) (afterFunctions body (Stmt.walkAll body))

def Block.walkOption : Option Block → Record Unit
  | none => pure ()
  | some b => b.walk

end

end NameAudit
