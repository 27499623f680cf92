import NameAudit.Namespace.Basic

/-!
Names that hold the same value because one was assigned from the other.
-/
namespace NameAudit.Namespace

/-- Follows at most `n` links, and none that leads back to the start. -/
def followAliases (ns : Namespace) (start : NameId) : Nat → NameId → NameId
  | 0, current => current
  | n + 1, current =>
    match (ns.name current).aliasOf with
    | none => current
    | some next => if next = start then current else ns.followAliases start n next

/-- The name whose value a name got, at the end of the links.  Links can form a cycle, so there are
no more steps than names. -/
def resolveAlias (ns : Namespace) (id : NameId) : NameId :=
  ns.followAliases id ns.names.size id

/-- The name on the other side of the link of an ancestor, along the same base names. -/
def acrossAlias? (ns : Namespace) (id ancestor : NameId) (below : List String) : Option NameId :=
  if ancestor = id ∨ (ns.name ancestor).aliasOf = none then none
  else (ns.descend? (ns.resolveAlias ancestor) below).filter (· != id)

/-- The names across the links of some ancestors, given the base names below the first of them. -/
def acrossAliases (ns : Namespace) (id : NameId) (below : List String) : List NameId → List NameId
  | [] => []
  | a :: ancestors =>
    (ns.acrossAlias? id a below).toList ++
      ns.acrossAliases id ((ns.name a).baseName :: below) ancestors

/-- The names that hold the same value as a name because one of its ancestors was assigned from
another name: after `ns.C = C`, the name `C.m` for `ns.C.m`. -/
def aliasEquivalents (ns : Namespace) (id : NameId) : List NameId :=
  ns.acrossAliases id [] (ns.selfAndAncestors id)

end NameAudit.Namespace
