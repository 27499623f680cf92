import NameAudit.Namespace.Record
import NameAudit.Scope

/-!
A tree with other comments. `mapDocs` changes the comments of all statements in a tree and nothing
else: spans, names, chains and what the tree declares stay as they are.
-/
namespace NameAudit

mutual

/-- Changes the comments in an expression. -/
def Expr.mapDocs (f : DocComment → DocComment) : Expr → Expr
  | .array span elements => .array span (Element.mapDocsAll f elements)
  | .object span members => .object span (Member.mapDocsAll f members)
  | .func span name g => .func span name (g.mapDocs f)
  | .classExpr span name base members =>
    .classExpr span name (Expr.mapDocsOption f base) (ClassMember.mapDocsAll f members)
  | .template span tag substitutions =>
    .template span (Expr.mapDocsOption f tag) (Expr.mapDocsAll f substitutions)
  | .member span isOptional owner name => .member span isOptional (owner.mapDocs f) name
  | .index span isOptional owner key => .index span isOptional (owner.mapDocs f) (key.mapDocs f)
  | .call span isOptional callee args =>
    .call span isOptional (callee.mapDocs f) (Arg.mapDocsAll f args)
  | .construct span callee args => .construct span (callee.mapDocs f) (Arg.mapDocsAll f args)
  | .unary span op operand => .unary span op (operand.mapDocs f)
  | .step span op operand => .step span op (operand.mapDocs f)
  | .binary span op left right => .binary span op (left.mapDocs f) (right.mapDocs f)
  | .assign span op target value => .assign span op (target.mapDocs f) (value.mapDocs f)
  | .comma span left right => .comma span (left.mapDocs f) (right.mapDocs f)
  | .conditional span test consequent alternate =>
    .conditional span (test.mapDocs f) (consequent.mapDocs f) (alternate.mapDocs f)
  | .yield span isDelegate argument => .yield span isDelegate (Expr.mapDocsOption f argument)
  | .destructuring d => .destructuring (d.mapDocs f)
  | .ident span name => .ident span name
  | .literal span value => .literal span value
  | .thisRef span => .thisRef span
  | .superRef span => .superRef span
  | .newTarget span => .newTarget span

def Expr.mapDocsAll (f : DocComment → DocComment) : List Expr → List Expr
  | [] => []
  | e :: es => e.mapDocs f :: Expr.mapDocsAll f es

def Expr.mapDocsOption (f : DocComment → DocComment) : Option Expr → Option Expr
  | none => none
  | some e => some (e.mapDocs f)

def Destructuring.mapDocs (f : DocComment → DocComment) : Destructuring → Destructuring
  | .array span elements rest =>
    .array span (PatternElement.mapDocsAll f elements) (Pattern.mapDocsOption f rest)
  | .object span properties rest =>
    .object span (PatternProperty.mapDocsAll f properties) (Pattern.mapDocsOption f rest)

def Pattern.mapDocs (f : DocComment → DocComment) : Pattern → Pattern
  | .ident span name => .ident span name
  | .destructuring d => .destructuring (d.mapDocs f)
  | .target e => .target (e.mapDocs f)

def Pattern.mapDocsOption (f : DocComment → DocComment) : Option Pattern → Option Pattern
  | none => none
  | some p => some (p.mapDocs f)

def PatternElement.mapDocsAll (f : DocComment → DocComment) :
    List PatternElement → List PatternElement
  | [] => []
  | .hole :: es => .hole :: PatternElement.mapDocsAll f es
  | .item target default :: es =>
    .item (target.mapDocs f) (Expr.mapDocsOption f default) :: PatternElement.mapDocsAll f es

def PatternProperty.mapDocsAll (f : DocComment → DocComment) :
    List PatternProperty → List PatternProperty
  | [] => []
  | .mk span key target default :: ps =>
    .mk span (key.mapDocs f) (target.mapDocs f) (Expr.mapDocsOption f default) ::
      PatternProperty.mapDocsAll f ps

def Element.mapDocsAll (f : DocComment → DocComment) : List Element → List Element
  | [] => []
  | .hole :: es => .hole :: Element.mapDocsAll f es
  | .item e :: es => .item (e.mapDocs f) :: Element.mapDocsAll f es
  | .spread e :: es => .spread (e.mapDocs f) :: Element.mapDocsAll f es

def Arg.mapDocsAll (f : DocComment → DocComment) : List Arg → List Arg
  | [] => []
  | .mk span isSpread value :: as => .mk span isSpread (value.mapDocs f) :: Arg.mapDocsAll f as

def Key.mapDocs (f : DocComment → DocComment) : Key → Key
  | .direct name => .direct name
  | .hidden name => .hidden name
  | .computed e => .computed (e.mapDocs f)

def PropertyValue.mapDocs (f : DocComment → DocComment) : PropertyValue → PropertyValue
  | .getter g => .getter (g.mapDocs f)
  | .setter g => .setter (g.mapDocs f)
  | .method g => .method (g.mapDocs f)
  | .value e => .value (Expr.mapDocsOption f e)

def Member.mapDocsAll (f : DocComment → DocComment) : List Member → List Member
  | [] => []
  | .property span key value :: ms =>
    .property span (key.mapDocs f) (value.mapDocs f) :: Member.mapDocsAll f ms
  | .shorthand span name nameSpan :: ms => .shorthand span name nameSpan :: Member.mapDocsAll f ms
  | .spread span e :: ms => .spread span (e.mapDocs f) :: Member.mapDocsAll f ms

def ClassMember.mapDocsAll (f : DocComment → DocComment) : List ClassMember → List ClassMember
  | [] => []
  | .property span isStatic key value :: ms =>
    .property span isStatic (key.mapDocs f) (value.mapDocs f) :: ClassMember.mapDocsAll f ms
  | .staticBlock span body :: ms =>
    .staticBlock span (Stmt.mapDocsAll f body) :: ClassMember.mapDocsAll f ms

def Func.mapDocs (f : DocComment → DocComment) : Func → Func
  | .mk span isArrow isAsync isGenerator params body =>
    .mk span isArrow isAsync isGenerator (Param.mapDocsAll f params) (body.mapDocs f)

def Body.mapDocs (f : DocComment → DocComment) : Body → Body
  | .block body => .block (Stmt.mapDocsAll f body)
  | .expr e => .expr (e.mapDocs f)

def Param.mapDocsAll (f : DocComment → DocComment) : List Param → List Param
  | [] => []
  | .mk span isRest p default :: ps =>
    .mk span isRest (p.mapDocs f) (Expr.mapDocsOption f default) :: Param.mapDocsAll f ps

/-- Changes the comments in a statement, and the one before it. -/
def Stmt.mapDocs (f : DocComment → DocComment) : Stmt → Stmt
  | .mk span doc form => .mk span (doc.map f) (form.mapDocs f)

def Stmt.mapDocsAll (f : DocComment → DocComment) : List Stmt → List Stmt
  | [] => []
  | s :: ss => s.mapDocs f :: Stmt.mapDocsAll f ss

def Stmt.mapDocsOption (f : DocComment → DocComment) : Option Stmt → Option Stmt
  | none => none
  | some s => some (s.mapDocs f)

def StmtForm.mapDocs (f : DocComment → DocComment) : StmtForm → StmtForm
  | .block body => .block (Stmt.mapDocsAll f body)
  | .classDecl name nameSpan base members =>
    .classDecl name nameSpan (Expr.mapDocsOption f base) (ClassMember.mapDocsAll f members)
  | .doLoop body condition => .doLoop (body.mapDocs f) (condition.mapDocs f)
  | .expr e => .expr (e.mapDocs f)
  | .forEach isOf isAwait head subject body =>
    .forEach isOf isAwait (head.mapDocs f) (subject.mapDocs f) (body.mapDocs f)
  | .forLoop init condition update body =>
    .forLoop (init.mapDocs f) (Expr.mapDocsOption f condition) (Expr.mapDocsOption f update)
      (body.mapDocs f)
  | .funcDecl name nameSpan g => .funcDecl name nameSpan (g.mapDocs f)
  | .conditional test consequent alternate =>
    .conditional (test.mapDocs f) (consequent.mapDocs f) (Stmt.mapDocsOption f alternate)
  | .labelled name body => .labelled name (body.mapDocs f)
  | .returns value => .returns (Expr.mapDocsOption f value)
  | .switch subject branches => .switch (subject.mapDocs f) (Branch.mapDocsAll f branches)
  | .throws value => .throws (value.mapDocs f)
  | .attempt body handler finalizer =>
    .attempt (body.mapDocs f) (Handler.mapDocsOption f handler) (Block.mapDocsOption f finalizer)
  | .vars mode ds => .vars mode (Declarator.mapDocsAll f ds)
  | .whileLoop condition body => .whileLoop (condition.mapDocs f) (body.mapDocs f)
  | .scoped owner body => .scoped (owner.mapDocs f) (body.mapDocs f)
  | .breakTo label => .breakTo label
  | .continueTo label => .continueTo label
  | .debugger => .debugger
  | .empty => .empty

def Declarator.mapDocsAll (f : DocComment → DocComment) : List Declarator → List Declarator
  | [] => []
  | .mk p value :: ds =>
    .mk (p.mapDocs f) (Expr.mapDocsOption f value) :: Declarator.mapDocsAll f ds

def ForInit.mapDocs (f : DocComment → DocComment) : ForInit → ForInit
  | .nothing => .nothing
  | .expr e => .expr (e.mapDocs f)
  | .vars span mode ds => .vars span mode (Declarator.mapDocsAll f ds)

def ForHead.mapDocs (f : DocComment → DocComment) : ForHead → ForHead
  | .target e => .target (e.mapDocs f)
  | .declares mode p => .declares mode (p.mapDocs f)

def Branch.mapDocsAll (f : DocComment → DocComment) : List Branch → List Branch
  | [] => []
  | .mk span test body :: bs =>
    .mk span (Expr.mapDocsOption f test) (Stmt.mapDocsAll f body) :: Branch.mapDocsAll f bs

def Handler.mapDocsOption (f : DocComment → DocComment) : Option Handler → Option Handler
  | none => none
  | some (.mk span param body) =>
    some (.mk span (Pattern.mapDocsOption f param) (Stmt.mapDocsAll f body))

def Block.mapDocs (f : DocComment → DocComment) : Block → Block
  | .mk span body => .mk span (Stmt.mapDocsAll f body)

def Block.mapDocsOption (f : DocComment → DocComment) : Option Block → Option Block
  | none => none
  | some b => some (b.mapDocs f)

end

/-- Changes the comments in a program text, and the one that describes it. -/
def Script.mapDocs (f : DocComment → DocComment) (s : Script) : Script :=
  ⟨s.span, s.doc.map f, Stmt.mapDocsAll f s.body⟩

section
variable (f : DocComment → DocComment)

/-! ### Expressions -/

theorem Expr.span_mapDocs (e : Expr) : (e.mapDocs f).span = e.span := by
  cases e with
  | destructuring d => cases d <;> rfl
  | _ => rfl

theorem Expr.chain?_mapDocs (e : Expr) : (e.mapDocs f).chain? = e.chain? := by
  cases e with
  | member span isOptional owner name =>
    rw [Expr.mapDocs, Expr.chain?, Expr.chain?, Expr.chain?_mapDocs owner]
  | _ => rfl

theorem Expr.path?_mapDocs (e : Expr) : (e.mapDocs f).path? = e.path? := by
  rw [Expr.path?, Expr.chain?_mapDocs, Expr.path?]

theorem Key.directName?_mapDocs (key : Key) : (key.mapDocs f).directName? = key.directName? := by
  cases key <;> rfl

theorem Member.directKeys_mapDocsAll (ms : List Member) :
    Member.directKeys (Member.mapDocsAll f ms) = Member.directKeys ms := by
  induction ms with
  | nil => rfl
  | cons m ms ih =>
    cases m with
    | property span key value =>
      rw [Member.mapDocsAll, Member.directKeys, Member.directKeys, Key.directName?_mapDocs, ih]
    | shorthand span name nameSpan => exact congrArg (name :: ·) ih
    | spread span e => exact ih

theorem Expr.literalKeys?_mapDocs (e : Expr) : (e.mapDocs f).literalKeys? = e.literalKeys? := by
  cases e with
  | object span members => exact congrArg some (Member.directKeys_mapDocsAll f members)
  | _ => rfl

theorem Arg.plainValues?_mapDocsAll (args : List Arg) :
    Arg.plainValues? (Arg.mapDocsAll f args) =
      (Arg.plainValues? args).map (List.map (·.mapDocs f)) := by
  induction args with
  | nil => rfl
  | cons arg args ih =>
    obtain ⟨span, isSpread, value⟩ := arg
    rw [Arg.mapDocsAll, Arg.plainValues?, Arg.plainValues?, ih]
    split
    · rfl
    · rw [Option.map_map, Option.map_map]
      rfl

/-! ### What is declared -/

mutual

theorem Pattern.names_mapDocs (p : Pattern) : (p.mapDocs f).names = p.names := by
  cases p with
  | ident | target => rfl
  | destructuring d => exact d.names_mapDocs

theorem Pattern.namesOfRest_mapDocsOption (p : Option Pattern) :
    Pattern.namesOfRest (Pattern.mapDocsOption f p) = Pattern.namesOfRest p := by
  cases p with
  | none => rfl
  | some p => exact p.names_mapDocs

theorem Destructuring.names_mapDocs (d : Destructuring) : (d.mapDocs f).names = d.names := by
  cases d with
  | array span elements rest =>
    rw [Destructuring.mapDocs, Destructuring.names, Destructuring.names,
      PatternElement.namesOf_mapDocsAll, Pattern.namesOfRest_mapDocsOption]
  | object span properties rest =>
    rw [Destructuring.mapDocs, Destructuring.names, Destructuring.names,
      PatternProperty.namesOf_mapDocsAll, Pattern.namesOfRest_mapDocsOption]

theorem PatternElement.namesOf_mapDocsAll (es : List PatternElement) :
    PatternElement.namesOf (PatternElement.mapDocsAll f es) = PatternElement.namesOf es := by
  cases es with
  | nil => rfl
  | cons e es =>
    cases e with
    | hole => exact PatternElement.namesOf_mapDocsAll es
    | item target default =>
      rw [PatternElement.mapDocsAll, PatternElement.namesOf, PatternElement.namesOf,
        target.names_mapDocs, PatternElement.namesOf_mapDocsAll es]

theorem PatternProperty.namesOf_mapDocsAll (ps : List PatternProperty) :
    PatternProperty.namesOf (PatternProperty.mapDocsAll f ps) = PatternProperty.namesOf ps := by
  cases ps with
  | nil => rfl
  | cons p ps =>
    obtain ⟨span, key, target, default⟩ := p
    rw [PatternProperty.mapDocsAll, PatternProperty.namesOf, PatternProperty.namesOf,
      target.names_mapDocs, PatternProperty.namesOf_mapDocsAll ps]

end

theorem Declarator.namesOf_mapDocsAll (ds : List Declarator) :
    Declarator.namesOf (Declarator.mapDocsAll f ds) = Declarator.namesOf ds := by
  induction ds with
  | nil => rfl
  | cons d ds ih =>
    obtain ⟨p, value⟩ := d
    rw [Declarator.mapDocsAll, Declarator.namesOf, Declarator.namesOf, p.names_mapDocs, ih]

theorem Param.namesOf_mapDocsAll (ps : List Param) :
    Param.namesOf (Param.mapDocsAll f ps) = Param.namesOf ps := by
  induction ps with
  | nil => rfl
  | cons p ps ih =>
    obtain ⟨span, isRest, p, default⟩ := p
    rw [Param.mapDocsAll, Param.namesOf, Param.namesOf, p.names_mapDocs, ih]

theorem ForHead.blockNames_mapDocs (head : ForHead) :
    (head.mapDocs f).blockNames = head.blockNames := by
  cases head with
  | target e => rfl
  | declares mode p => exact congrArg (NameAudit.blockNames mode) (p.names_mapDocs f)

theorem ForInit.blockNames_mapDocs (init : ForInit) :
    (init.mapDocs f).blockNames = init.blockNames := by
  cases init with
  | nothing | expr => rfl
  | vars span mode ds =>
    exact congrArg (NameAudit.blockNames mode) (Declarator.namesOf_mapDocsAll f ds)

theorem Stmt.lexicalNames_mapDocsAll (ss : List Stmt) :
    Stmt.lexicalNames (Stmt.mapDocsAll f ss) = Stmt.lexicalNames ss := by
  induction ss with
  | nil => rfl
  | cons s ss ih =>
    obtain ⟨span, doc, form⟩ := s
    cases form with
    | vars mode ds =>
      rw [Stmt.mapDocsAll, Stmt.mapDocs, StmtForm.mapDocs, Stmt.lexicalNames, Stmt.lexicalNames,
        Declarator.namesOf_mapDocsAll, ih]
    | classDecl name nameSpan base members => exact congrArg (name :: ·) ih
    | _ => exact ih

theorem Branch.lexicalNames_mapDocsAll (bs : List Branch) :
    Branch.lexicalNames (Branch.mapDocsAll f bs) = Branch.lexicalNames bs := by
  induction bs with
  | nil => rfl
  | cons b bs ih =>
    obtain ⟨span, test, body⟩ := b
    rw [Branch.mapDocsAll, Branch.lexicalNames, Branch.lexicalNames, Stmt.lexicalNames_mapDocsAll, ih]

theorem ForHead.declaredNames_mapDocs (head : ForHead) :
    (head.mapDocs f).declaredNames = head.declaredNames := by
  cases head with
  | target e => rfl
  | declares mode p => exact p.names_mapDocs f

theorem ForInit.declaredNames_mapDocs (init : ForInit) :
    (init.mapDocs f).declaredNames = init.declaredNames := by
  cases init with
  | nothing | expr => rfl
  | vars span mode ds => exact Declarator.namesOf_mapDocsAll f ds

mutual

theorem Stmt.declaredNames_mapDocs (s : Stmt) : (s.mapDocs f).declaredNames = s.declaredNames := by
  cases s with
  | mk span doc form => exact form.declaredNames_mapDocs

theorem StmtForm.declaredNames_mapDocs (form : StmtForm) :
    (form.mapDocs f).declaredNames = form.declaredNames := by
  cases form with
  | block body => exact Stmt.declaredNamesOf_mapDocsAll body
  | doLoop body condition => exact body.declaredNames_mapDocs
  | labelled name body => exact body.declaredNames_mapDocs
  | whileLoop condition body => exact body.declaredNames_mapDocs
  | «scoped» owner body => exact body.declaredNames_mapDocs
  | vars mode ds => exact Declarator.namesOf_mapDocsAll f ds
  | switch subject branches => exact Branch.declaredNamesOf_mapDocsAll branches
  | forEach isOf isAwait head subject body =>
    rw [StmtForm.mapDocs, StmtForm.declaredNames, StmtForm.declaredNames,
      head.declaredNames_mapDocs, body.declaredNames_mapDocs]
  | forLoop init condition update body =>
    rw [StmtForm.mapDocs, StmtForm.declaredNames, StmtForm.declaredNames,
      init.declaredNames_mapDocs, body.declaredNames_mapDocs]
  | conditional test consequent alternate =>
    rw [StmtForm.mapDocs, StmtForm.declaredNames, StmtForm.declaredNames,
      consequent.declaredNames_mapDocs, Stmt.declaredNamesOfOption_mapDocsOption]
  | attempt body handler finalizer =>
    rw [StmtForm.mapDocs, StmtForm.declaredNames, StmtForm.declaredNames, body.declaredNames_mapDocs,
      Handler.declaredNamesOfOption_mapDocsOption, Block.declaredNamesOfOption_mapDocsOption]
  | _ => rfl

theorem Stmt.declaredNamesOf_mapDocsAll (ss : List Stmt) :
    Stmt.declaredNamesOf (Stmt.mapDocsAll f ss) = Stmt.declaredNamesOf ss := by
  cases ss with
  | nil => rfl
  | cons s ss =>
    rw [Stmt.mapDocsAll, Stmt.declaredNamesOf, Stmt.declaredNamesOf, s.declaredNames_mapDocs,
      Stmt.declaredNamesOf_mapDocsAll ss]

theorem Stmt.declaredNamesOfOption_mapDocsOption (s : Option Stmt) :
    Stmt.declaredNamesOfOption (Stmt.mapDocsOption f s) = Stmt.declaredNamesOfOption s := by
  cases s with
  | none => rfl
  | some s => exact s.declaredNames_mapDocs

theorem Branch.declaredNamesOf_mapDocsAll (bs : List Branch) :
    Branch.declaredNamesOf (Branch.mapDocsAll f bs) = Branch.declaredNamesOf bs := by
  cases bs with
  | nil => rfl
  | cons b bs =>
    obtain ⟨span, test, body⟩ := b
    rw [Branch.mapDocsAll, Branch.declaredNamesOf, Branch.declaredNamesOf,
      Stmt.declaredNamesOf_mapDocsAll body, Branch.declaredNamesOf_mapDocsAll bs]

theorem Block.declaredNames_mapDocs (b : Block) :
    (b.mapDocs f).declaredNames = b.declaredNames := by
  cases b with
  | mk span body => exact Stmt.declaredNamesOf_mapDocsAll body

theorem Block.declaredNamesOfOption_mapDocsOption (b : Option Block) :
    Block.declaredNamesOfOption (Block.mapDocsOption f b) = Block.declaredNamesOfOption b := by
  cases b with
  | none => rfl
  | some b => exact b.declaredNames_mapDocs

theorem Handler.declaredNamesOfOption_mapDocsOption (h : Option Handler) :
    Handler.declaredNamesOfOption (Handler.mapDocsOption f h) =
      Handler.declaredNamesOfOption h := by
  cases h with
  | none => rfl
  | some h =>
    cases h with
    | mk span param body =>
      rw [Handler.mapDocsOption, Handler.declaredNamesOfOption, Handler.declaredNamesOfOption,
        Pattern.namesOfRest_mapDocsOption, Stmt.declaredNamesOf_mapDocsAll body]

end

theorem Body.declaredNames_mapDocs (body : Body) :
    (body.mapDocs f).declaredNames = body.declaredNames := by
  cases body with
  | block body => exact Stmt.declaredNamesOf_mapDocsAll f body
  | expr e => rfl

/-! ### What the walk reads ahead -/

namespace Record

theorem valueKind_mapDocs (value : Expr) (isDeclared : Bool) :
    valueKind (value.mapDocs f) isDeclared = valueKind value isDeclared := by
  cases value <;> rfl

theorem globalPath?_mapDocs (e : Expr) : globalPath? (e.mapDocs f) = globalPath? e := by
  rw [globalPath?, Expr.path?_mapDocs, globalPath?]

theorem prototypeLiteral_mapDocs (path : Path) (value : Expr) :
    prototypeLiteral path (value.mapDocs f) = prototypeLiteral path value := by
  rw [prototypeLiteral, Expr.literalKeys?_mapDocs, prototypeLiteral]

theorem inheritance?_mapDocs (callee : Expr) (args : List Arg) :
    inheritance? (callee.mapDocs f) (Arg.mapDocsAll f args) = inheritance? callee args := by
  rw [inheritance?, globalPath?_mapDocs, Arg.plainValues?_mapDocsAll, inheritance?]
  congr 1
  funext path
  cases path with
  | none => rfl
  | some path =>
    cases Arg.plainValues? args with
    | none => rfl
    | some values =>
      match values with
      | [] => rfl
      | [parent] => simp only [Option.map_some, List.map_cons, List.map_nil, globalPath?_mapDocs]
      | [child, parent] =>
        simp only [Option.map_some, List.map_cons, List.map_nil, globalPath?_mapDocs]
      | _ :: _ :: _ :: _ => rfl

theorem declaresType_map (keeps : ∀ d, (f d).declaresType = d.declaresType)
    (doc : Option DocComment) : declaresType (doc.map f) = declaresType doc := by
  cases doc with
  | none => rfl
  | some d => exact keeps d

theorem declareFunctions_mapDocsAll (keeps : ∀ d, (f d).declaresType = d.declaresType)
    (ss : List Stmt) : declareFunctions (Stmt.mapDocsAll f ss) = declareFunctions ss := by
  induction ss with
  | nil => rfl
  | cons s ss ih =>
    obtain ⟨span, doc, form⟩ := s
    cases form with
    | funcDecl name nameSpan g =>
      rw [Stmt.mapDocsAll, Stmt.mapDocs, StmtForm.mapDocs, declareFunctions, declareFunctions,
        declaresType_map f keeps, ih]
    | _ => exact ih

end Record
end
end NameAudit
