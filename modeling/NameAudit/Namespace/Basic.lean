import NameAudit.ChunkGraph
import NameAudit.Diagnostic

/-!
The namespace of a program: every qualified name that is reachable from the global scope, and every
reference to one.  Names form a forest by their parents; names and references are numbered in the
order in which they were first met, which for references is the order of evaluation.
-/
namespace NameAudit

/-- The number of a name. -/
@[ext]
structure NameId where
  index : Nat
  deriving DecidableEq, Inhabited, Repr

/-- The number of a reference. -/
@[ext]
structure RefId where
  index : Nat
  deriving DecidableEq, Inhabited, Repr

/-- What the value of a name is, as far as its definitions agree. -/
inductive NameKind where
  | var
  | func
  | classDef
  /-- An object literal, whose keys are children of the name. -/
  | objectLiteral
  | getter
  | setter
  | other
  deriving DecidableEq, Inhabited, Repr

/-- How a reference uses its name. -/
inductive RefType where
  | set
  | get
  | call
  | delete
  /-- The value goes elsewhere, so that the name can be reached on another path. -/
  | aliasingGet
  /-- The name is constructed from. -/
  | construct
  /-- The prototype of the name, or a member of it. -/
  | prototypeGet
  deriving DecidableEq, Inhabited, Repr

/-- Why a reference is never reported as undefined. -/
inductive Exemption where
  | none
  /-- It is reached through `?.`. -/
  | conditional
  /-- It stands where a comment suppresses the warning. -/
  | suppressed
  /-- It is a whole statement. -/
  | bareExpression
  deriving DecidableEq, Inhabited, Repr

/-- The part of a program that a file belongs to: the description of the environment, or a chunk. -/
inductive Slot where
  | externs
  | chunk (c : ChunkId)
  deriving DecidableEq, Inhabited, Repr

/-- Where a reference stands, and when it is evaluated. -/
structure Position where
  slot : Slot
  place : Place
  /-- Position in the order of evaluation. -/
  order : Nat
  deriving DecidableEq, Inhabited, Repr

/-- What a class extends, when it extends something. -/
inductive Superclass where
  | known (name : NameId)
  | unknown
  deriving DecidableEq, Inhabited, Repr

/-- A qualified name and what is known about it. -/
structure Name where
  id : NameId
  baseName : String
  /-- The base names from the root on, joined by points. -/
  fullName : String
  parent : Option NameId := none
  /-- The names below it, by base name, in the order in which they were met. -/
  children : List (String × NameId) := []
  kind : NameKind := .other
  sets : List RefId := []
  uses : List RefId := []
  /-- The first set outside functions. -/
  declaration : Option RefId := none
  /-- The number of sets outside functions. -/
  globalSets : Nat := 0
  /-- The number of sets inside functions. -/
  localSets : Nat := 0
  aliasingGets : Nat := 0
  /-- Some members are not known by name. -/
  hasUnknownMembers : Bool := false
  /-- The name whose value was assigned last. -/
  aliasOf : Option NameId := none
  superclass : Option Superclass := none
  inheritsFrom : Option NameId := none
  /-- The members assigned to the prototype, in increasing order. -/
  prototypeMembers : List String := []
  /-- A comment marks the function as a constructor or an interface. -/
  declaredType : Bool := false
  deriving DecidableEq, Inhabited, Repr

namespace Name

/-- A name is defined when something sets it. -/
def isDefined (n : Name) : Bool := !n.sets.isEmpty

def isRoot (n : Name) : Bool := n.parent.isNone

/-- Adds a text to an increasing list, unless it is there. -/
def insertSorted (s : String) : List String → List String
  | [] => [s]
  | t :: ts => if s = t then t :: ts else if s < t then s :: t :: ts else t :: insertSorted s ts

def addPrototypeMembers (n : Name) (members : List String) : Name :=
  { n with
    prototypeMembers := members.foldl (fun known m => insertSorted m known) n.prototypeMembers }

/-- Notes the kind of the value of a set that is already listed.  The first set decides, and a set
that disagrees with it leaves no certain kind. -/
def mergeKind (n : Name) (kind : NameKind) : Name :=
  if n.sets.length ≤ 1 then { n with kind := kind }
  else if n.kind = kind then n
  else { n with kind := .other }

/-- Lists a reference. -/
def addRef (n : Name) (id : RefId) (type : RefType) (isGlobal : Bool) : Name :=
  match type with
  | .set =>
    if isGlobal then
      { n with
        sets := n.sets ++ [id]
        globalSets := n.globalSets + 1
        declaration := some (n.declaration.getD id) }
    else { n with sets := n.sets ++ [id], localSets := n.localSets + 1 }
  | .aliasingGet => { n with uses := n.uses ++ [id], aliasingGets := n.aliasingGets + 1 }
  | _ => { n with uses := n.uses ++ [id] }

end Name

structure Ref where
  id : RefId
  name : NameId
  type : RefType
  position : Position
  /-- The reference stands outside functions. -/
  isGlobal : Bool
  exemption : Exemption
  /-- A bare name with a comment, which declares it. -/
  isStub : Bool := false
  /-- The member of the prototype that is meant. -/
  prototypeMember : Option String := none
  deriving DecidableEq, Inhabited, Repr

/-- Names and references, by number, and the names without parents. -/
structure Namespace where
  names : Array Name := #[]
  refs : Array Ref := #[]
  /-- The roots by base name, in the order in which they were met. -/
  roots : List (String × NameId) := []
  deriving Inhabited, Repr

/-- The number filed under a base name. -/
def findByBase (base : String) (entries : List (String × NameId)) : Option NameId :=
  (entries.find? (·.1 == base)).map (·.2)

namespace Namespace

def name (ns : Namespace) (id : NameId) : Name := (ns.names[id.index]?).getD default

def ref (ns : Namespace) (id : RefId) : Ref := (ns.refs[id.index]?).getD default

def nameIds (ns : Namespace) : List NameId := (List.range ns.names.size).map NameId.mk

/-- The numbers of all references, in the order of evaluation. -/
def refIds (ns : Namespace) : List RefId := (List.range ns.refs.size).map RefId.mk

def root? (ns : Namespace) (base : String) : Option NameId := findByBase base ns.roots

/-- The roots in the order in which they were met. -/
def rootOrder (ns : Namespace) : List NameId := ns.roots.map (·.2)

def child? (ns : Namespace) (parent : NameId) (base : String) : Option NameId :=
  findByBase base (ns.name parent).children

/-- The children of a name in the order in which they were met. -/
def children (ns : Namespace) (parent : NameId) : List NameId :=
  (ns.name parent).children.map (·.2)

/-- Goes down along base names. -/
def descend? (ns : Namespace) (id : NameId) : List String → Option NameId
  | [] => some id
  | base :: bases =>
    match ns.child? id base with
    | some c => ns.descend? c bases
    | none => none

/-- Cuts a text at its points. -/
def segments : List Char → List (List Char)
  | [] => [[]]
  | c :: cs =>
    match segments cs with
    | [] => [[c]]
    | first :: others => if c = '.' then [] :: first :: others else (c :: first) :: others

/-- The name that a dotted text spells. -/
def lookup? (ns : Namespace) (fullName : String) : Option NameId :=
  match (segments fullName.toList).map String.ofList with
  | [] => none
  | base :: bases =>
    match ns.root? base with
    | some id => ns.descend? id bases
    | none => none

/-- The references to a name in the order of evaluation, sets and uses together. -/
def refsOf (ns : Namespace) (id : NameId) : List RefId :=
  ((ns.name id).sets ++ (ns.name id).uses).mergeSort fun a b => a.index ≤ b.index

/-- A name and its ancestors, innermost first.  A parent is met before its children, so its number
is smaller. -/
def selfAndAncestors (ns : Namespace) (id : NameId) : List NameId :=
  id :: match (ns.name id).parent with
    | none => []
    | some p => if p.index < id.index then ns.selfAndAncestors p else []
termination_by id.index

def rootOf (ns : Namespace) (id : NameId) : NameId := ((ns.selfAndAncestors id).getLast?).getD id

def modifyName (ns : Namespace) (id : NameId) (f : Name → Name) : Namespace :=
  { ns with names := ns.names.modify id.index f }

def nextName (ns : Namespace) : NameId := ⟨ns.names.size⟩

def nextRef (ns : Namespace) : RefId := ⟨ns.refs.size⟩

/-- Adds a name, which gets the number `nextName`. -/
def pushName (ns : Namespace) (parent : Option NameId) (base : String) : Namespace :=
  let fullName := match parent with
    | some p => (ns.name p).fullName ++ "." ++ base
    | none => base
  { ns with
    names := ns.names.push
      { id := ns.nextName, baseName := base, fullName := fullName, parent := parent } }

/-- Files a root under its base name. -/
def fileRoot (ns : Namespace) (base : String) (id : NameId) : Namespace :=
  { ns with roots := ns.roots ++ [(base, id)] }

/-- Files a child of a name under its base name. -/
def fileChild (ns : Namespace) (parent : NameId) (base : String) (id : NameId) : Namespace :=
  ns.modifyName parent fun n => { n with children := n.children ++ [(base, id)] }

/-- The root with a base name, which is added unless it is there. -/
def rootOrNew (ns : Namespace) (base : String) : NameId × Namespace :=
  match ns.root? base with
  | some id => (id, ns)
  | none => (ns.nextName, (ns.pushName none base).fileRoot base ns.nextName)

/-- The child of a name with a base name, which is added unless it is there. -/
def childOrNew (ns : Namespace) (parent : NameId) (base : String) : NameId × Namespace :=
  match ns.child? parent base with
  | some id => (id, ns)
  | none => (ns.nextName, (ns.pushName (some parent) base).fileChild parent base ns.nextName)

/-- The name below a name along base names, with what is missing added. -/
def descendOrNew (ns : Namespace) (id : NameId) : List String → NameId × Namespace
  | [] => (id, ns)
  | base :: bases =>
    let (c, ns) := ns.childOrNew id base
    ns.descendOrNew c bases

/-- Adds a reference, which gets the number `nextRef`. -/
def addRef (ns : Namespace) (r : Ref) : Namespace :=
  let id := ns.nextRef
  let added : Namespace := { ns with refs := ns.refs.push r }
  added.modifyName r.name fun n => n.addRef id r.type r.isGlobal

end Namespace
end NameAudit
