import NameAudit.DocComment
import NameAudit.Namespace.Basic
import NameAudit.Namespace.Path

/-!
Recording references while a program is walked in the order of evaluation.
-/
namespace NameAudit

/-- What is known at a point of the walk. -/
structure Recording where
  space : Namespace := {}
  /-- The local scopes around the point, innermost first. -/
  scopes : List Scope := []
  slot : Slot := .externs
  file : FileId := ⟨0⟩
  /-- The position of the next reference in the order of evaluation. -/
  order : Nat := 0
  /-- How many comments around the point suppress warnings. -/
  suppressed : Nat := 0
  /-- A comment marks the first set of the statement as that of a type. -/
  declaresType : Bool := false
  deriving Inhabited, Repr

/-- A step of the walk. -/
abbrev Record := StateM Recording

namespace Record

/-- Whether a comment suppresses the warning about undefined names. -/
def suppresses (doc : Option DocComment) : Bool :=
  match doc with
  | none => false
  | some d => d.suppresses "undefinedNames" || d.suppresses "undefinedVars"

def declaresType (doc : Option DocComment) : Bool :=
  match doc with
  | none => false
  | some d => d.declaresType

def isGlobal (name : String) : Record Bool := do return Scope.isGlobal (← get).scopes name

def modifySpace (f : Namespace → Namespace) : Record Unit :=
  modify fun r => { r with space := f r.space }

def modifyName (id : NameId) (f : Name → Name) : Record Unit :=
  modifySpace fun ns => ns.modifyName id f

def root (base : String) : Record NameId := do
  let r ← get
  let (id, space) := r.space.rootOrNew base
  set { r with space := space }
  return id

def child (parent : NameId) (base : String) : Record NameId := do
  let r ← get
  let (id, space) := r.space.childOrNew parent base
  set { r with space := space }
  return id

def nameAt (path : Path) : Record NameId := do
  let id ← root path.root
  let r ← get
  let (id, space) := r.space.descendOrNew id path.members
  set { r with space := space }
  return id

def inScope (scope : Scope) (step : Record Unit) : Record Unit := do
  modify fun r => { r with scopes := scope :: r.scopes }
  step
  modify fun r => { r with scopes := r.scopes.tail }

def inBlock (names : List String) (step : Record Unit) : Record Unit :=
  inScope ⟨false, names⟩ step

def inFunction (names : List String) (step : Record Unit) : Record Unit :=
  inScope ⟨true, names⟩ step

/-- Runs a step under a comment, which may suppress warnings. -/
def underDoc (doc : Option DocComment) (step : Record Unit) : Record Unit := do
  if suppresses doc then
    modify fun r => { r with suppressed := r.suppressed + 1 }
    step
    modify fun r => { r with suppressed := r.suppressed - 1 }
  else step

/-- Sets the mark of a type for a step, and removes it afterwards. -/
def markingType (mark : Bool) (step : Record Unit) : Record Unit := do
  modify fun r => { r with declaresType := mark }
  step
  modify fun r => { r with declaresType := false }

/-- Runs a step without the mark of a type, and puts the mark back afterwards. -/
def withoutMark (step : Record Unit) : Record Unit := do
  let mark := (← get).declaresType
  modify fun r => { r with declaresType := false }
  step
  modify fun r => { r with declaresType := mark }

/-- The next reference.  Where warnings are suppressed, so is one that has no other exemption. -/
def nextRef (r : Recording) (name : NameId) (type : RefType) (span : Span) (exemption : Exemption)
    (isStub : Bool) (prototypeMember : Option String) : Ref where
  id := r.space.nextRef
  name := name
  type := type
  position := ⟨r.slot, ⟨r.file, span.clamped⟩, r.order⟩
  isGlobal := !Scope.inFunction r.scopes
  exemption := if exemption = .none ∧ 0 < r.suppressed then .suppressed else exemption
  isStub := isStub
  prototypeMember := prototypeMember

def reference (name : NameId) (type : RefType) (span : Span) (exemption : Exemption)
    (isStub : Bool := false) (prototypeMember : Option String := none) : Record Unit :=
  modify fun r =>
    { r with
      order := r.order + 1
      space := r.space.addRef (nextRef r name type span exemption isStub prototypeMember) }

/-- Records a set.  The mark of a type is used up, and counts for a function only. -/
def setName (name : NameId) (kind : NameKind) (span : Span) (isStub : Bool := false) :
    Record Unit := do
  reference name .set span .none isStub
  modifyName name (·.mergeKind kind)
  if (← get).declaresType && kind == .func then
    modifyName name fun n => { n with declaredType := true }
  modify fun r => { r with declaresType := false }

/-- Records a reference to the prototype of a name or to a member of it.  An assigned member is
noted with the name. -/
def prototypeGet (owner : Path) (member : Option String) (span : Span) (exemption : Exemption)
    (isAssigned : Bool) : Record Unit := do
  let id ← nameAt owner
  reference id .prototypeGet span exemption false member
  if isAssigned then modifyName id (·.addPrototypeMembers member.toList)

/-- Records a use of a path.  The answer is the name, unless the path leads through a prototype. -/
def usePath (path : Path) (type : RefType) (span : Span) (exemption : Exemption) :
    Record (Option NameId) := do
  match path.beforePrototype? with
  | some (owner, member) =>
    prototypeGet owner member span exemption false
    return none
  | none =>
    let id ← nameAt path
    reference id type span exemption
    return some id

/-- Records a use of a chain with a global root.  The answer is the name, if the value that it holds
can be reached on another path from here.  With a `?.`, the part before it is certainly read, and
the whole on condition. -/
def useChain (chain : Chain) (type : RefType) (span : Span) (exemption : Exemption) :
    Record (Option NameId) := do
  if ← isGlobal chain.path.root then
    match chain.certain with
    | some certain =>
      let _ ← usePath certain .get span exemption
      let _ ← usePath chain.path type span .conditional
      return none
    | none => usePath chain.path type span exemption
  else return none

/-- Uses the chain that an expression is, or runs a step for any other expression. -/
def useChainOr (e : Expr) (type : RefType) (otherwise : Record Unit) : Record (Option NameId) := do
  match e.chain? with
  | some chain => useChain chain type e.span .none
  | none =>
    otherwise
    return none

/-- The path of an expression with a global root and without `?.`. -/
def globalPath? (e : Expr) : Record (Option Path) := do
  match e.path? with
  | some path => if ← isGlobal path.root then return some path else return none
  | none => return none

/-- The root of a declared name, if the name is global here. -/
def declared (name : String) : Record (Option NameId) := do
  if ← isGlobal name then return some (← root name) else return none

/-- Records the set of a declared name, if the name is global here. -/
def declare (name : String) (kind : NameKind) (span : Span) : Record (Option NameId) := do
  let target ← declared name
  match target with
  | some id =>
    setName id kind span
    return some id
  | none => return none

/-- Records the set of an assigned path.  The answer is the name, unless the path leads through a
prototype. -/
def assignPath (path : Path) (span : Span) (kind : NameKind) : Record (Option NameId) := do
  match path.beforePrototype? with
  | some (owner, member) =>
    prototypeGet owner member span .none true
    return none
  | none =>
    let id ← nameAt path
    setName id kind span
    return some id

/-- Notes that a name got the value of another. -/
def linkTo (source target : NameId) : Record Unit :=
  modifyName target fun n => { n with aliasOf := some source }

/-- Notes that an assigned name got the value of another, unless it is assigned to itself. -/
def link (target source : Option NameId) : Record Unit := do
  match target, source with
  | some t, some s => if t = s then pure () else linkTo s t
  | _, _ => pure ()

/-- Notes that a key got the value of the variable that it abbreviates. -/
def abbreviate (key source : Option NameId) : Record Unit := do
  match key, source with
  | some k, some s => linkTo s k
  | _, _ => pure ()

/-- Notes that some members of a name are not known. -/
def hideMembers (target : Option NameId) : Record Unit := do
  match target with
  | some t => modifyName t fun n => { n with hasUnknownMembers := true }
  | none => pure ()

/-- The child of a known name for a known key. -/
def childOf (target : Option NameId) (key : Option String) : Record (Option NameId) := do
  match target, key with
  | some t, some k => return some (← child t k)
  | _, _ => return none

/-- Records the set of a name, if it is known. -/
def setKnown (name : Option NameId) (kind : NameKind) (span : Span) : Record Unit := do
  match name with
  | some id => setName id kind span
  | none => pure ()

/-- The kind of an assigned value; what a declaration assigns is a variable at least. -/
def valueKind (value : Expr) (isDeclared : Bool) : NameKind :=
  match value with
  | .func _ _ _ => .func
  | .classExpr _ _ _ _ => .classDef
  | .object _ _ => .objectLiteral
  | _ => if isDeclared then .var else .other

/-- Notes the keys of an object literal that is assigned to a prototype as a whole. -/
def prototypeLiteral (path : Path) (value : Expr) : Record Unit := do
  match path.beforePrototype?, value.literalKeys? with
  | some (owner, none), some keys =>
    let id ← nameAt owner
    modifyName id (·.addPrototypeMembers keys)
  | _, _ => pure ()

/-- The paths of child and parent in a call that makes one inherit from the other:
`Child.inherits(Parent)` or `ns.inherits(Child, Parent)`. -/
def inheritance? (callee : Expr) (args : List Arg) : Record (Option (Path × Path)) := do
  match ← globalPath? callee, Arg.plainValues? args with
  | some path, some values =>
    if path.members.getLast? = some "inherits" then
      match values with
      | [parent] =>
        let parent ← globalPath? parent
        return parent.map fun p => (⟨path.root, path.members.dropLast⟩, p)
      | [child, parent] =>
        let child ← globalPath? child
        let parent ← globalPath? parent
        match child, parent with
        | some c, some p => return some (c, p)
        | _, _ => return none
      | _ => return none
    else return none
  | _, _ => return none

/-- Notes that one name inherits from another, unless a prototype is on the way. -/
def inherit (child parent : Path) : Record Unit := do
  match child.beforePrototype?, parent.beforePrototype? with
  | none, none =>
    let c ← nameAt child
    let p ← nameAt parent
    modifyName c fun n => { n with inheritsFrom := some p }
  | _, _ => pure ()

/-- Records a statement that is nothing but a path: a declaration when it has a comment, and a read
without effect otherwise. -/
def barePath (path : Path) (span : Span) (hasDoc : Bool) : Record Unit := do
  if ← isGlobal path.root then
    if hasDoc then
      match path.beforePrototype? with
      | some (owner, member) => prototypeGet owner member span .none true
      | none => setName (← nameAt path) .other span true
    else
      let _ ← usePath path .get span .bareExpression

/-- Records the functions that a list of statements declares; they are set before the list runs. -/
def declareFunctions : List Stmt → Record Unit
  | [] => pure ()
  | .mk _ doc (.funcDecl name nameSpan _) :: ss => do
    markingType (declaresType doc) do
      let _ ← declare name .func nameSpan
    declareFunctions ss
  | _ :: ss => declareFunctions ss

/-- Runs a list of statements, the walk of which is given, after its functions are declared. -/
def afterFunctions (body : List Stmt) (walk : Record Unit) : Record Unit := do
  declareFunctions body
  walk

end Record
end NameAudit
