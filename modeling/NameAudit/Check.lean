import NameAudit.Levels
import NameAudit.Namespace.Alias

/-!
The check of a namespace.  Only the members of roots are checked, and only when the program itself,
not its environment, declares the root.
-/
namespace NameAudit

/-- What is wrong with a reference. -/
inductive Problem where
  | undefined
  /-- The owner of the name is set only later, first by this declaration. -/
  | definedLate (owner : NameId) (declaration : RefId)
  /-- The first chunk that sets the name is not among those that the using chunk depends on. -/
  | strictDependency (definer : ChunkId) (isSibling : Bool)
  deriving DecidableEq, Inhabited, Repr

def Problem.kind : Problem → ProblemKind
  | undefined => .undefinedName
  | definedLate _ _ => .definedLate
  | strictDependency _ _ => .strictDependency

/-- A problem with a reference and the qualified name that it is about. -/
structure Finding where
  reference : RefId
  name : String
  problem : Problem
  deriving DecidableEq, Inhabited, Repr

/-- The members that every object has. -/
def builtinObjectMembers : List String :=
  ["constructor", "hasOwnProperty", "isPrototypeOf", "propertyIsEnumerable", "toLocaleString",
    "toString", "valueOf"]

/-- The members that every function has. -/
def builtinFunctionMembers : List String := ["apply", "bind", "call", "length", "name"]

/-- The member that holds what a constructor inherits from; it is set indirectly. -/
def inheritedKey : String := "superClass_"

namespace Namespace

/-- Whether the prototype of a root gets a member somewhere in the program. -/
def rootPrototypeHas (ns : Namespace) (root base : String) : Bool :=
  match ns.root? root with
  | some id => (ns.name id).prototypeMembers.contains base
  | none => false

/-- Whether every object has a member. -/
def isObjectMember (ns : Namespace) (base : String) : Bool :=
  builtinObjectMembers.contains base || ns.rootPrototypeHas "Object" base

/-- Whether every function has a member. -/
def isFunctionMember (ns : Namespace) (base : String) : Bool :=
  builtinFunctionMembers.contains base || ns.rootPrototypeHas "Function" base

def hasDefinedChild (ns : Namespace) (id : NameId) (base : String) : Bool :=
  match ns.child? id base with
  | some c => (ns.name c).isDefined
  | none => false

/-- Whether the static members of a class are all known: it extends nothing and has a static member
that is defined. -/
def hasKnownStatics (ns : Namespace) (id : NameId) : Bool :=
  (ns.name id).kind == .classDef && (ns.name id).superclass.isNone &&
    (ns.children id).any fun c => (ns.name c).isDefined

/-- Whether a class has a static member by what it extends. -/
def inheritsStatic (ns : Namespace) (superclass : Option Superclass) (base : String) : Bool :=
  match superclass with
  | none => false
  | some .unknown => true
  | some (.known s) => if ns.hasKnownStatics s then ns.hasDefinedChild s base else true

/-- Whether `X.superClass_` has a member, where `X` inherits from a constructor; unless that can be
told, it has. -/
def inheritsMember (ns : Namespace) (parent : Name) (base : String) : Bool :=
  if parent.baseName = inheritedKey then
    match parent.parent.bind fun x => (ns.name x).inheritsFrom with
    | none => true
    | some y =>
      let constructor := ns.name y
      if constructor.kind = .func ∧ constructor.declaredType = true then
        ns.hasDefinedChild y base || constructor.prototypeMembers.contains base
      else true
  else true

/-- Whether what a name holds, or what is above it, can be reached on another path. -/
def isAliased (ns : Namespace) (id : NameId) : Bool :=
  (ns.selfAndAncestors id).any fun a => 0 < (ns.name a).aliasingGets

/-- Whether a name that nothing sets is a member of its parent all the same. -/
def isImpliedMember (ns : Namespace) (parentId : NameId) (base : String) : Bool :=
  let parent := ns.name parentId
  ns.isAliased parentId || parent.hasUnknownMembers || base == inheritedKey ||
    ns.isObjectMember base ||
    match parent.kind with
    | .objectLiteral => false
    | .classDef => ns.inheritsStatic parent.superclass base
    | .func => if parent.declaredType then ns.isFunctionMember base
      else ns.inheritsMember parent base
    | _ => ns.inheritsMember parent base

/-- Whether a name is defined as far as its own definition goes, that is, if what is above it is. -/
def isDefinedProperty (ns : Namespace) (id : NameId) : Bool :=
  match (ns.name id).parent with
  | none => true
  | some parent => (ns.name id).isDefined || ns.isImpliedMember parent (ns.name id).baseName

/-- Whether a name and all its ancestors are defined. -/
def isDefinedPath (ns : Namespace) (id : NameId) : Bool :=
  (ns.selfAndAncestors id).all ns.isDefinedProperty

/-- The outermost name at or above a name that is not defined, found by climbing from parent to
parent as long as the parent is not defined either. -/
def firstUndefined (ns : Namespace) (id : NameId) : NameId :=
  match (ns.name id).parent with
  | none => id
  | some p =>
    if ns.isDefinedPath p then id
    else if p.index < id.index then ns.firstUndefined p
    else id
termination_by id.index

/-- The problem of a reference to a name that is never defined. -/
def undefinedFinding (ns : Namespace) (id : NameId) (r : Ref) : Finding :=
  ⟨r.id, (ns.name (ns.firstUndefined id)).fullName, .undefined⟩

def setsOf (ns : Namespace) (ids : List NameId) : List RefId :=
  ids.flatMap fun id => (ns.name id).sets

/-- The sets that can define what a reference to a name means: those of the name and of the names
that hold the same value, or else those of the nearest ancestor that has any, before the
reference. -/
def definingSets (ns : Namespace) (id : NameId) (r : Ref) : List RefId :=
  match ns.setsOf (id :: ns.aliasEquivalents id) with
  | [] =>
    match (ns.selfAndAncestors id).tail.find? fun a => (ns.name a).isDefined with
    | none => []
    | some a =>
      (ns.name a).sets.filter fun d => (ns.ref d).position.order < r.position.order
  | sets => sets

/-- The chunks of some sets, unless the environment makes one of them. -/
def chunksOf? (ns : Namespace) : List RefId → Option (List ChunkId)
  | [] => some []
  | d :: ds =>
    match (ns.ref d).position.slot with
    | .externs => none
    | .chunk c => (ns.chunksOf? ds).map (c :: ·)

/-- The chunk that is loaded first. -/
def earliest? (graph : ChunkGraph) (chunks : List ChunkId) : Option ChunkId :=
  graph.order.find? chunks.contains

/-- The first chunk that sets what a reference to a name means, if the chunk of the reference
depends on none that does. -/
def strictDefiner? (ns : Namespace) (graph : ChunkGraph) (user : ChunkId) (id : NameId) (r : Ref) :
    Option ChunkId :=
  if r.type = .set ∨ r.exemption = .conditional then none
  else
    match ns.chunksOf? (ns.definingSets id r) with
    | none => none
    | some chunks =>
      if chunks.any (graph.dependsOn user) then none else earliest? graph chunks

/-- The problem of a reference to what its chunk does not depend on. -/
def strictFinding? (ns : Namespace) (graph : ChunkGraph) (id : NameId) (r : Ref) : Option Finding :=
  match r.position.slot with
  | .externs => none
  | .chunk user =>
    (ns.strictDefiner? graph user id r).map fun definer =>
      ⟨r.id, (ns.name id).fullName, .strictDependency definer (graph.isSibling user definer)⟩

/-- The name that has to be set before a reference to a name: the name itself for its prototype, and
its parent for a member. -/
def ownerOf? (ns : Namespace) (id : NameId) (r : Ref) : Option NameId :=
  if r.type = .prototypeGet then some id else (ns.name id).parent

/-- What a reference to a name is about, in messages about late definitions. -/
def referredName (ns : Namespace) (id : NameId) (r : Ref) : String :=
  let fullName := (ns.name id).fullName
  if r.type = .prototypeGet then fullName ++ ".prototype" else fullName

/-- The problem of a reference before its owner is set.  Sets inside functions can run at any time,
so with one of them nothing is late. -/
def lateFinding? (ns : Namespace) (id : NameId) (r : Ref) : Option Finding :=
  match ns.ownerOf? id r with
  | none => none
  | some owner =>
    match (ns.name owner).declaration with
    | none => none
    | some declaration =>
      if 0 < (ns.name owner).localSets ∨
          (ns.ref declaration).position.order ≤ r.position.order then none
      else some ⟨r.id, ns.referredName id r, .definedLate owner declaration⟩

/-- The problem of a reference with the order of loading or else of evaluation; only what is defined
can be late. -/
def orderFinding? (ns : Namespace) (graph : ChunkGraph) (id : NameId) (isDefined : Bool) (r : Ref) :
    Option Finding :=
  match ns.strictFinding? graph id r with
  | some f => some f
  | none => if (isDefined || r.isStub) && r.isGlobal then ns.lateFinding? id r else none

/-- The problems of a reference to a name, given whether the name and all its ancestors are
defined. -/
def findingsAt (ns : Namespace) (graph : ChunkGraph) (id : NameId) (isDefined : Bool) (r : Ref) :
    List Finding :=
  (if !isDefined && !r.isStub && r.exemption == .none then [ns.undefinedFinding id r] else []) ++
    (ns.orderFinding? graph id isDefined r).toList

/-- The names below a name, each before those below it, and whether each of them and all its
ancestors are defined, given whether those of the first name are.  A child is met after its parent,
so its number is larger. -/
def definednessBelow (ns : Namespace) (parent : NameId) (isDefined : Bool) :
    List (NameId × Bool) :=
  (ns.children parent).flatMap fun c =>
    if parent.index < c.index ∧ c.index < ns.names.size then
      let isDefined := isDefined && ns.isDefinedProperty c
      (c, isDefined) :: ns.definednessBelow c isDefined
    else []
termination_by ns.names.size - parent.index

/-- Whether the names below a root are checked: the first set of the root is part of the program. -/
def isDeclaredRoot (ns : Namespace) (root : NameId) : Bool :=
  match (ns.name root).sets.head? with
  | none => false
  | some first => (ns.ref first).position.slot != .externs

/-- The checked names and whether each of them and all its ancestors are defined, along the trees
below the roots. -/
def definedness (ns : Namespace) : List (NameId × Bool) :=
  ns.rootOrder.flatMap fun root =>
    if ns.isDeclaredRoot root then ns.definednessBelow root true else []

def findingsByName (ns : Namespace) (graph : ChunkGraph) : List Finding :=
  ns.definedness.flatMap fun (id, isDefined) =>
    (ns.refsOf id).flatMap fun r => ns.findingsAt graph id isDefined (ns.ref r)

/-- Whether a problem is listed before another, or beside it: by the order of evaluation, and for one
reference by the kind. -/
def listedBefore (ns : Namespace) (f g : Finding) : Bool :=
  let i := (ns.ref f.reference).position.order
  let j := (ns.ref g.reference).position.order
  i < j || i == j && f.problem.kind.rank ≤ g.problem.kind.rank

/-- All problems, in the order of evaluation. -/
def findings (ns : Namespace) (graph : ChunkGraph) : List Finding :=
  (ns.findingsByName graph).mergeSort ns.listedBefore

end Namespace
end NameAudit
