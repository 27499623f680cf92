import NameAudit.Scope

/-!
Qualified names as they are written: an identifier followed by members that are neither computed nor
private.
-/
namespace NameAudit

/-- An identifier and the members after it. -/
structure Path where
  root : String
  members : List String
  deriving DecidableEq, Inhabited, Repr

namespace Path

def push (p : Path) (member : String) : Path := { p with members := p.members ++ [member] }

/-- The path before a `prototype` among the members, and the member after it. -/
def beforePrototype? (p : Path) : Option (Path × Option String) :=
  match p.members.dropWhile (· != "prototype") with
  | [] => none
  | _ :: after => some (⟨p.root, p.members.takeWhile (· != "prototype")⟩, after.head?)

end Path

/-- A path with the part of it that is always evaluated, when it holds a `?.`. -/
structure Chain where
  path : Path
  certain : Option Path
  deriving DecidableEq, Inhabited, Repr

def Chain.push (c : Chain) (isOptional : Bool) (member : String) : Chain where
  path := c.path.push member
  certain := match c.certain with
    | some p => some p
    | none => if isOptional then some c.path else none

/-- The chain that an expression is.  Private members are not properties of the object. -/
def Expr.chain? : Expr → Option Chain
  | .ident _ name => some ⟨⟨name, []⟩, none⟩
  | .member _ isOptional owner name =>
    if isPrivateName name then none else owner.chain?.map (·.push isOptional name)
  | _ => none

/-- The path of an expression without `?.`. -/
def Expr.path? (e : Expr) : Option Path :=
  match e.chain? with
  | some ⟨path, none⟩ => some path
  | _ => none

/-- The keys of an object literal that are known by name. -/
def Member.directKeys : List Member → List String
  | [] => []
  | .property _ key _ :: ms => key.directName?.toList ++ directKeys ms
  | .shorthand _ name _ :: ms => name :: directKeys ms
  | .spread _ _ :: ms => directKeys ms

/-- The keys that an object literal assigns; other expressions have none. -/
def Expr.literalKeys? : Expr → Option (List String)
  | .object _ members => some (Member.directKeys members)
  | _ => none

/-- The values of some arguments, unless one of them is spread. -/
def Arg.plainValues? : List Arg → Option (List Expr)
  | [] => some []
  | .mk _ isSpread value :: as =>
    if isSpread then none else (plainValues? as).map (value :: ·)

end NameAudit
