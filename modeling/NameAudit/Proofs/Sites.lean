import NameAudit.Namespace.Walk
import NameAudit.Proofs.Ancestors

/-!
The parts of a syntax tree that references come from, read off the tree alone. An occurrence is an
identifier with all the members after it that are neither computed nor private; a definition is the
name of a declaration or a known key, which sets a name without being an expression. `sites` lists
every occurrence and every definition of a tree with the scopes around it, each once, in the order of
evaluation, and knows nothing of how an expression is used. `Site.Records` says which references a
site stands for.
-/
namespace NameAudit

/-- Where a part of a program stands. -/
structure Surroundings where
  slot : Slot
  file : FileId
  /-- The local scopes around the part, innermost first. -/
  scopes : List Scope

/-- The inside of a block that binds names. -/
def Surroundings.inBlock (a : Surroundings) (names : List String) : Surroundings :=
  { a with scopes := ⟨false, names⟩ :: a.scopes }

/-- The inside of a function that binds names. -/
def Surroundings.inFunction (a : Surroundings) (names : List String) : Surroundings :=
  { a with scopes := ⟨true, names⟩ :: a.scopes }

/-- One member after an identifier, behind `?.` or a point. -/
structure Link where
  isOptional : Bool
  member : String
  deriving DecidableEq

/-- An identifier and the members after it. -/
structure Occurrence where
  root : String
  links : List Link
  deriving DecidableEq

namespace Occurrence

/-- The path of all members. -/
def path (o : Occurrence) : Path := ⟨o.root, o.links.map (·.member)⟩

/-- Whether a member is behind `?.`. -/
def isConditional (o : Occurrence) : Bool := o.links.any (·.isOptional)

/-- The path before the first `?.`. -/
def certainPath (o : Occurrence) : Path :=
  ⟨o.root, (o.links.takeWhile fun l => !l.isOptional).map (·.member)⟩

end Occurrence

/-- The occurrence that an expression is. -/
def Expr.occurrence? : Expr → Option Occurrence
  | .ident _ name => some ⟨name, []⟩
  | .member _ isOptional owner name =>
    if isPrivateName name then none
    else owner.occurrence?.map fun o => { o with links := o.links ++ [⟨isOptional, name⟩] }
  | _ => none

/-- A part of a tree that references come from. -/
inductive Site where
  | occurrence (around : Surroundings) (span : Span) (o : Occurrence)
  /-- The name of a declared function or class, or a known key of a literal or a class. -/
  | definition (around : Surroundings) (span : Span) (base : String)

/-- The names of the functions that a list of statements declares. -/
def Stmt.functionSites (a : Surroundings) : List Stmt → List Site
  | [] => []
  | .mk _ _ (.funcDecl name nameSpan _) :: ss => .definition a nameSpan name :: functionSites a ss
  | _ :: ss => functionSites a ss

/-- The site of a key, if that is known by name. -/
def Site.ofKey (a : Surroundings) (span : Span) (key : Option String) : List Site :=
  key.toList.map (Site.definition a span)

mutual

/-- The sites of an expression. The object of a longer occurrence is none of its own. -/
def Expr.sites (a : Surroundings) : Expr → List Site
  | .ident span name => [.occurrence a span ⟨name, []⟩]
  | .member span isOptional owner name =>
    match (Expr.member span isOptional owner name).occurrence? with
    | some o => [.occurrence a span o]
    | none => owner.sites a
  | .index _ _ owner key => owner.sites a ++ key.sites a
  | .call _ _ callee args => callee.sites a ++ Arg.sitesOf a args
  | .construct _ callee args => callee.sites a ++ Arg.sitesOf a args
  | .unary _ _ operand => operand.sites a
  | .step _ _ operand => operand.sites a
  | .yield _ _ argument => Expr.sitesOfOption a argument
  | .assign _ _ target value => target.sites a ++ value.sites a
  | .binary _ _ left right => left.sites a ++ right.sites a
  | .comma _ left right => left.sites a ++ right.sites a
  | .conditional _ test consequent alternate =>
    test.sites a ++ (consequent.sites a ++ alternate.sites a)
  | .func _ name f => f.sites a name
  | .classExpr _ name base members =>
    Expr.sitesOfOption a base ++ ClassMember.sitesOf (a.inBlock name.toList) members
  | .array _ elements => Element.sitesOf a elements
  | .object _ members => Member.sitesOf a members
  | .template _ tag substitutions => Expr.sitesOfOption a tag ++ Expr.sitesOf a substitutions
  | .destructuring d => d.sites a
  | .literal _ _ | .thisRef _ | .superRef _ | .newTarget _ => []

/-- The sites of some expressions. -/
def Expr.sitesOf (a : Surroundings) : List Expr → List Site
  | [] => []
  | e :: es => e.sites a ++ Expr.sitesOf a es

/-- The sites of an optional expression. -/
def Expr.sitesOfOption (a : Surroundings) : Option Expr → List Site
  | none => []
  | some e => e.sites a

/-- The sites inside a key. -/
def Key.sites (a : Surroundings) : Key → List Site
  | .direct _ | .hidden _ => []
  | .computed e => e.sites a

/-- The sites of the elements of an array literal. -/
def Element.sitesOf (a : Surroundings) : List Element → List Site
  | [] => []
  | .hole :: es => Element.sitesOf a es
  | .item e :: es => e.sites a ++ Element.sitesOf a es
  | .spread e :: es => e.sites a ++ Element.sitesOf a es

/-- The sites of the arguments of a call. -/
def Arg.sitesOf (a : Surroundings) : List Arg → List Site
  | [] => []
  | .mk _ _ value :: as => value.sites a ++ Arg.sitesOf a as

/-- The sites of the members of an object literal. A shorthand is a key and an occurrence in one. -/
def Member.sitesOf (a : Surroundings) : List Member → List Site
  | [] => []
  | .property span key value :: ms =>
    key.sites a ++
      (Site.ofKey a span key.directName? ++ value.sites a ++ Member.sitesOf a ms)
  | .shorthand _ name nameSpan :: ms =>
    .definition a nameSpan name :: .occurrence a nameSpan ⟨name, []⟩ :: Member.sitesOf a ms
  | .spread _ e :: ms => e.sites a ++ Member.sitesOf a ms

/-- The sites of the value of a member. -/
def PropertyValue.sites (a : Surroundings) : PropertyValue → List Site
  | .getter f | .setter f | .method f => f.sites a none
  | .value e => Expr.sitesOfOption a e

/-- The sites of the value of a member of the instances of a class. -/
def PropertyValue.instanceSites (a : Surroundings) : PropertyValue → List Site
  | .getter f | .setter f | .method f => f.sites a none
  | .value e => Expr.sitesOfOption (a.inFunction []) e

/-- The sites of the members of a class. Only static members are members of a name. -/
def ClassMember.sitesOf (a : Surroundings) : List ClassMember → List Site
  | [] => []
  | .property span true key value :: ms =>
    key.sites a ++
      (Site.ofKey a span key.directName? ++ value.sites a ++ ClassMember.sitesOf a ms)
  | .property _ false key value :: ms =>
    key.sites a ++ (value.instanceSites a ++ ClassMember.sitesOf a ms)
  | .staticBlock _ body :: ms =>
    let inner := a.inFunction (Stmt.declaredNamesOf body)
    Stmt.functionSites inner body ++ Stmt.sitesOf inner body ++ ClassMember.sitesOf a ms

/-- The sites of a function, which can have a name of its own. -/
def Func.sites (a : Surroundings) (ownName : Option String) : Func → List Site
  | .mk _ _ _ _ params body =>
    let inner := a.inFunction (Param.namesOf params ++ body.declaredNames ++ ownName.toList)
    Param.sitesOf inner params ++ body.sites inner

/-- The sites of the body of a function. -/
def Body.sites (a : Surroundings) : Body → List Site
  | .block body => Stmt.functionSites a body ++ Stmt.sitesOf a body
  | .expr e => e.sites a

/-- The sites of parameters. -/
def Param.sitesOf (a : Surroundings) : List Param → List Site
  | [] => []
  | .mk _ _ p default :: ps => p.sites a ++ (Expr.sitesOfOption a default ++ Param.sitesOf a ps)

/-- The sites of a pattern. -/
def Pattern.sites (a : Surroundings) : Pattern → List Site
  | .ident span name => [.occurrence a span ⟨name, []⟩]
  | .destructuring d => d.sites a
  | .target e => e.sites a

/-- The sites of the rest of a pattern. -/
def Pattern.sitesOfOption (a : Surroundings) : Option Pattern → List Site
  | none => []
  | some p => p.sites a

/-- The sites of a destructuring. -/
def Destructuring.sites (a : Surroundings) : Destructuring → List Site
  | .array _ elements rest => PatternElement.sitesOf a elements ++ Pattern.sitesOfOption a rest
  | .object _ properties rest =>
    PatternProperty.sitesOf a properties ++ Pattern.sitesOfOption a rest

/-- The sites of the elements of an array pattern. -/
def PatternElement.sitesOf (a : Surroundings) : List PatternElement → List Site
  | [] => []
  | .hole :: es => PatternElement.sitesOf a es
  | .item target default :: es =>
    target.sites a ++ (Expr.sitesOfOption a default ++ PatternElement.sitesOf a es)

/-- The sites of the properties of an object pattern. -/
def PatternProperty.sitesOf (a : Surroundings) : List PatternProperty → List Site
  | [] => []
  | .mk _ key target default :: ps =>
    key.sites a ++
      (target.sites a ++ (Expr.sitesOfOption a default ++ PatternProperty.sitesOf a ps))

/-- The sites of a statement. -/
def Stmt.sites (a : Surroundings) : Stmt → List Site
  | .mk _ _ form => form.sites a

/-- The sites of statements, without the names of the functions that they declare. -/
def Stmt.sitesOf (a : Surroundings) : List Stmt → List Site
  | [] => []
  | s :: ss => s.sites a ++ Stmt.sitesOf a ss

/-- The sites of an optional statement. -/
def Stmt.sitesOfOption (a : Surroundings) : Option Stmt → List Site
  | none => []
  | some s => s.sites a

/-- The sites of a form of statement. -/
def StmtForm.sites (a : Surroundings) : StmtForm → List Site
  | .block body =>
    let inner := a.inBlock (Stmt.lexicalNames body)
    Stmt.functionSites inner body ++ Stmt.sitesOf inner body
  | .classDecl name nameSpan base members =>
    .definition a nameSpan name ::
      (Expr.sitesOfOption a base ++ ClassMember.sitesOf (a.inBlock []) members)
  | .doLoop body condition => body.sites a ++ condition.sites a
  | .expr e => e.sites a
  | .forEach _ _ head subject body =>
    let inner := a.inBlock head.blockNames
    subject.sites inner ++ (head.sites inner ++ body.sites inner)
  | .forLoop init condition update body =>
    let inner := a.inBlock init.blockNames
    init.sites inner ++ (Expr.sitesOfOption inner condition ++
      (body.sites inner ++ Expr.sitesOfOption inner update))
  | .funcDecl _ _ f => f.sites a none
  | .conditional test consequent alternate =>
    test.sites a ++ (consequent.sites a ++ Stmt.sitesOfOption a alternate)
  | .labelled _ body => body.sites a
  | .returns value => Expr.sitesOfOption a value
  | .switch subject branches =>
    subject.sites a ++ Branch.sitesOf (a.inBlock (Branch.lexicalNames branches)) branches
  | .throws value => value.sites a
  | .attempt body handler finalizer =>
    body.sites a ++ (Handler.sitesOfOption a handler ++ Block.sitesOfOption a finalizer)
  | .vars _ declarators => Declarator.sitesOf a declarators
  | .whileLoop condition body => condition.sites a ++ body.sites a
  | .scoped owner body => owner.sites a ++ body.sites a
  | .breakTo _ | .continueTo _ | .debugger | .empty => []

/-- The sites of declarators. -/
def Declarator.sitesOf (a : Surroundings) : List Declarator → List Site
  | [] => []
  | .mk p value :: ds => p.sites a ++ (Expr.sitesOfOption a value ++ Declarator.sitesOf a ds)

/-- The sites of the first part of a loop. -/
def ForInit.sites (a : Surroundings) : ForInit → List Site
  | .nothing => []
  | .expr e => e.sites a
  | .vars _ _ declarators => Declarator.sitesOf a declarators

/-- The sites of what a loop over keys or elements assigns. -/
def ForHead.sites (a : Surroundings) : ForHead → List Site
  | .target e => e.sites a
  | .declares _ p => p.sites a

/-- The sites of the branches of a switch. -/
def Branch.sitesOf (a : Surroundings) : List Branch → List Site
  | [] => []
  | .mk _ test body :: bs =>
    Expr.sitesOfOption a test ++
      (Stmt.functionSites a body ++ Stmt.sitesOf a body ++ Branch.sitesOf a bs)

/-- The sites of a handler. -/
def Handler.sitesOfOption (a : Surroundings) : Option Handler → List Site
  | none => []
  | some (.mk _ param body) =>
    let inner := a.inBlock (Pattern.namesOfRest param ++ Stmt.lexicalNames body)
    Pattern.sitesOfOption inner param ++
      (Stmt.functionSites inner body ++ Stmt.sitesOf inner body)

/-- The sites of statements in braces. -/
def Block.sites (a : Surroundings) : Block → List Site
  | .mk _ body =>
    let inner := a.inBlock (Stmt.lexicalNames body)
    Stmt.functionSites inner body ++ Stmt.sitesOf inner body

/-- The sites of optional statements in braces. -/
def Block.sitesOfOption (a : Surroundings) : Option Block → List Site
  | none => []
  | some b => b.sites a

end

/-- A member access is one occurrence, or it has the sites of its owner. -/
theorem Expr.sites_member (a : Surroundings) (span : Span) (isOptional : Bool) (owner : Expr)
    (name : String) : (Expr.member span isOptional owner name).sites a =
      match (Expr.member span isOptional owner name).occurrence? with
      | some o => [.occurrence a span o]
      | none => owner.sites a := rfl

/-! ### The references of a site -/

/-- A reference is located at a part of a program. -/
structure Ref.StandsAt (r : Ref) (a : Surroundings) (span : Span) : Prop where
  slot : r.position.slot = a.slot
  place : r.position.place = ⟨a.file, span.clamped⟩
  /-- In a text under 4 GiB, the reference has just the bytes of the part. -/
  exact : span.start ≤ Span.offsetLimit → span.stop ≤ Span.offsetLimit →
    r.position.place.span = span
  isGlobal : r.isGlobal = !Scope.inFunction a.scopes

/-- A reference is to the name that a path spells or, for a path through `prototype`, to the
    prototype of the name before it. -/
def Namespace.RefersTo (ns : Namespace) (r : Ref) (p : Path) : Prop :=
  if "prototype" ∈ p.members then
    r.type = .prototypeGet ∧
      ns.Spelled r.name (p.root :: p.members.takeWhile (· != "prototype"))
  else ns.Spelled r.name (p.root :: p.members)

/-- The references that a site stands for. An occurrence with a local root has none; with a global
    root it has one, or two when a member is behind `?.`, the part before being certainly read. A
    definition sets at most one name, which has its base name. -/
def Site.Records (ns : Namespace) : Site → List Ref → Prop
  | .occurrence a span o, refs =>
    if Scope.isGlobal a.scopes o.root then
      if o.isConditional then
        ∃ first second, refs = [first, second] ∧ first.StandsAt a span ∧ second.StandsAt a span ∧
          ns.RefersTo first o.certainPath ∧ ns.RefersTo second o.path ∧
          second.exemption = .conditional
      else ∃ r, refs = [r] ∧ r.StandsAt a span ∧ ns.RefersTo r o.path
    else refs = []
  | .definition a span base, refs =>
    refs = [] ∨ ∃ r, refs = [r] ∧ r.StandsAt a span ∧ r.type = .set ∧
      ns.Has r.name ∧ (ns.name r.name).baseName = base

end NameAudit
