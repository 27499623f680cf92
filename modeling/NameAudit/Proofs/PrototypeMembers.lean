import NameAudit.Proofs.Assignments

/-!
Members that a program gives to prototypes. A member is given where it, or something below it, is
assigned, where a statement with a comment is nothing but the member, and where an object literal with
the key is assigned to the prototype as a whole. `Gives` says of a step that the member is known after
it; it is proved of the walk of each such node, and what is known of a prototype is never taken back
(`Grows.prototypeMembers`), so it is known of the whole program, wherever the node stands.
-/
namespace NameAudit

open Namespace (Grows Extends Spelled)
open Record

/-- A member of an object literal has a name as its key: before a colon, of a method or an accessor, or
    alone. -/
def Member.HasKey (m : String) : Member → Prop
  | .property _ (.direct name) _ => name = m
  | .shorthand _ name _ => name = m
  | _ => False

theorem Member.mem_directKeys {m : String} {ms : List Member} :
    m ∈ Member.directKeys ms ↔ ∃ x ∈ ms, x.HasKey m := by
  induction ms with
  | nil => simp [Member.directKeys]
  | cons first ms ih =>
    rw [List.exists_mem_cons_iff, ← ih]
    cases first with
    | property span key value =>
      cases key <;> simp [Member.directKeys, Key.directName?, Member.HasKey, eq_comm]
    | shorthand span name nameSpan => simp [Member.directKeys, Member.HasKey, eq_comm]
    | spread span e => simp [Member.directKeys, Member.HasKey]

/-- A node gives the prototype of a path a member. -/
inductive Node.GivesMember (owner : Path) (m : String) : Node → Prop
  | assigned {n : Node} {target : Expr} {path : Path} (assigns : n.Assigns target)
      (isPath : target.path? = some path) (member : path.beforePrototype? = some (owner, some m)) :
      GivesMember owner m n
  /-- Keys beside a spread or a computed key count as well. -/
  | literal {span literalSpan : Span} {target : Expr} {members : List Member} {path : Path}
      (isPath : target.path? = some path) (whole : path.beforePrototype? = some (owner, none))
      (key : ∃ x ∈ members, x.HasKey m) :
      GivesMember owner m (.expr (.assign span .plain target (.object literalSpan members)))
  | declared {span : Span} {doc : DocComment} {e : Expr} {path : Path}
      (isPath : e.path? = some path) (member : path.beforePrototype? = some (owner, some m)) :
      GivesMember owner m (.stmt (.mk span (some doc) (.expr e)))

/-- The name that a path spells is known to have a member on its prototype. -/
def Namespace.PrototypeHas (ns : Namespace) (owner : Path) (m : String) : Prop :=
  ∃ id, Spelled ns id (owner.root :: owner.members) ∧ m ∈ (ns.name id).prototypeMembers

/-- After the step, the prototype of a path is known to have a member. -/
abbrev Record.Gives {α : Type} (a : Surroundings) (ns : Namespace) (step : Record α) (owner : Path)
    (m : String) : Prop :=
  Logs a ns step fun _ later _ => later.PrototypeHas owner m

theorem Namespace.PrototypeHas.grows {old new : Namespace} {owner : Path} {m : String}
    (has : old.PrototypeHas owner m) (forest : old.Forest) (grows : Grows old new) :
    new.PrototypeHas owner m := by
  obtain ⟨id, spelled, member⟩ := has
  exact ⟨id, spelled.extends forest grows.extends, grows.prototypeMembers spelled.has member⟩

theorem Node.GivesMember.isName {owner : Path} {m : String} {n : Node}
    (gives : n.GivesMember owner m) : n.isName = false := by
  cases gives with
  | assigned assigns => exact assigns.isName
  | literal => rfl
  | declared => rfl

theorem Path.root_beforePrototype? {p owner : Path} {member : Option String}
    (found : p.beforePrototype? = some (owner, member)) : owner.root = p.root := by
  rw [(Path.beforePrototype?_eq_some found).2]

/-! ### Steps that give a member -/

namespace Record

section
variable {a : Surroundings} {ns : Namespace} {α β : Type} {step : Record α} {f : α → Record β}
variable {owner path : Path} {m : String} {span : Span}

/-- A step that gives a member, followed by any other. -/
theorem Gives.before (first : Gives a ns step owner m)
    (next : ∀ x later, Grows ns later → ∃ sites, Walks a later (f x) sites) :
    Gives a ns (step >>= f) owner m := by
  refine Logs.bind first fun x later _ grows forest has => ?_
  obtain ⟨sites, walks⟩ := next x later grows
  exact walks.imp fun _ _ _ further _ _ => has.grows forest further

theorem addPrototypeMembers_gives {id : NameId} (forest : ns.Forest)
    (spelled : Spelled ns id (owner.root :: owner.members)) {members : List String}
    (member : m ∈ members) :
    Gives a ns (modifyName id (·.addPrototypeMembers members)) owner m := by
  intro r here before
  obtain ⟨there, grows, refs, added, _⟩ :=
    modifyName_walks (addPrototypeMembers_notes id members) r here before
  have stays := spelled.extends forest before.extends
  refine ⟨there, grows, refs, added, id, stays.extends here.forest grows.extends, ?_⟩
  change m ∈ ((r.space.modifyName id _).name id).prototypeMembers
  rw [Namespace.name_modifyName, if_pos ⟨rfl, stays.has⟩]
  exact (Name.mem_addPrototypeMembers ..).mpr (.inr member)

theorem prototypeGet_gives (owner : Path) (m : String) (span : Span) (exemption : Exemption) :
    Gives a ns (prototypeGet owner (some m) span exemption true) owner m := by
  refine (nameAt_yields owner).skip fun id later _ forest spelled => ?_
  refine (reference_logs spelled.has .prototypeGet span exemption false (some m)).bind
    fun _ last _ further lastForest _ => ?_
  exact addPrototypeMembers_gives lastForest (spelled.extends forest further.extends)
    (List.mem_singleton_self m)

/-- What is assigned through a prototype is no name. -/
theorem assignPath_through {member : Option String}
    (through : path.beforePrototype? = some (owner, member)) (span : Span) (kind : NameKind) :
    Logs a ns (assignPath path span kind) fun x later _ =>
      x = none ∧ ∀ m ∈ member, later.PrototypeHas owner m := by
  rw [assignPath, through]
  cases member with
  | none =>
    exact (prototypeGet_logs through span .none true).returns
      fun _ _ _ _ _ _ => ⟨rfl, fun _ absent => (Option.not_mem_none _ absent).elim⟩
  | some m =>
    exact (prototypeGet_gives owner m span .none).returns
      fun _ _ _ _ _ has => ⟨rfl, fun _ same => Option.mem_some_iff.mp same ▸ has⟩

theorem prototypeLiteral_gives {value : Expr} {keys : List String}
    (whole : path.beforePrototype? = some (owner, none)) (isLiteral : value.literalKeys? = some keys)
    (key : m ∈ keys) : Gives a ns (prototypeLiteral path value) owner m := by
  rw [prototypeLiteral, whole, isLiteral]
  refine (nameAt_yields owner).skip fun id later _ forest spelled => ?_
  exact addPrototypeMembers_gives forest spelled key

theorem barePath_gives (member : path.beforePrototype? = some (owner, some m))
    (isGlobal : Scope.isGlobal a.scopes path.root = true) (span : Span) :
    Gives a ns (barePath path span true) owner m := by
  refine Logs.ifGlobal (fun _ => ?_) fun isLocal => ?_
  · rw [if_pos rfl, member]
    exact prototypeGet_gives owner m span .none
  · cases isGlobal.symm.trans isLocal

end
end Record

/-! ### Nodes that give a member -/

section
variable {a : Surroundings} {ns : Namespace} {target : Expr} {path owner : Path} {m : String}
variable (isPath : target.path? = some path)
variable (isGlobal : Scope.isGlobal a.scopes path.root = true)
include isPath isGlobal

theorem Expr.write_gives (member : path.beforePrototype? = some (owner, some m)) :
    Gives a ns (target.walk .write) owner m :=
  Expr.write_logs isPath isGlobal <|
    (assignPath_through member target.span .other).imp fun _ _ _ _ _ has => has.2 m rfl

theorem Expr.assign_member_gives (member : path.beforePrototype? = some (owner, some m))
    (span : Span) (value : Expr) (use : Use) :
    Gives a ns ((Expr.assign span .plain target value).walk use) owner m := by
  refine Expr.assign_logs isPath isGlobal ?_
  refine (assignPath_through member target.span (valueKind value false)).bind
    fun x later _ _ forest ⟨noName, has⟩ => ?_
  have walks := Expr.walk_sites value a later (.value none) later.knows_none
  rw [noName]
  exact ((prototypeLiteral_walks path value).seq walks).imp
    fun _ _ _ further _ _ => (has m rfl).grows forest further

theorem Expr.assign_literal_gives (whole : path.beforePrototype? = some (owner, none))
    {value : Expr} {keys : List String} (isLiteral : value.literalKeys? = some keys)
    (key : m ∈ keys) (span : Span) (use : Use) :
    Gives a ns ((Expr.assign span .plain target value).walk use) owner m := by
  refine Expr.assign_logs isPath isGlobal ?_
  refine (assignPath_through whole target.span (valueKind value false)).bind
    fun x later _ _ _ ⟨noName, _⟩ => ?_
  rw [noName]
  exact (prototypeLiteral_gives whole isLiteral key).before fun _ last _ =>
    ⟨_, Expr.walk_sites value a last (.value none) last.knows_none⟩

theorem StmtForm.bare_gives (member : path.beforePrototype? = some (owner, some m)) :
    Gives a ns ((StmtForm.expr target).walk true) owner m := by
  rw [StmtForm.walk_expr, isPath]
  exact barePath_gives member isGlobal target.span

end

/-- After the walk of a node, the members that it gives are known. -/
theorem Node.GivesMember.gives {a : Surroundings} {ns : Namespace} {owner : Path} {m : String}
    {n : Node} (gives : n.GivesMember owner m)
    (isGlobal : Scope.isGlobal a.scopes owner.root = true) (use : Use) :
    Gives a ns (n.walk use) owner m := by
  cases gives with
  | @assigned _ target path assigns isPath member =>
    rw [Path.root_beforePrototype? member] at isGlobal
    unfold Node.Assigns at assigns
    split at assigns
    next span t value =>
      subst assigns
      exact Expr.assign_member_gives isPath isGlobal member span value use
    next t =>
      subst assigns
      exact Expr.write_gives isPath isGlobal member
    next span doc isOf isAwait t subject body =>
      subst assigns
      refine Logs.underDoc doc (Logs.markingType _ (Logs.inBlock ?_))
      have inner : Scope.isGlobal (a.inBlock []).scopes path.root = true := isGlobal
      refine Logs.bind (Expr.walk_sites subject _ ns (.read .get) ns.knows_none)
        fun _ _ _ _ _ _ => ?_
      exact (Expr.write_gives isPath inner member).before fun _ space _ =>
        ⟨_, Stmt.walk_sites body _ space⟩
    next => exact assigns.elim
  | @literal span _ _ _ _ isPath whole key =>
    rw [Path.root_beforePrototype? whole] at isGlobal
    exact Expr.assign_literal_gives isPath isGlobal whole rfl (Member.mem_directKeys.mpr key) span use
  | @declared span doc _ _ isPath member =>
    rw [Path.root_beforePrototype? member] at isGlobal
    exact Logs.underDoc (some doc) <|
      Logs.markingType _ (StmtForm.bare_gives isPath isGlobal member)

/-- Wherever a program gives a member to the prototype of a global path, the member is known. -/
theorem Program.Contains.prototypeHas {p : Program} {a : Surroundings} {n : Node}
    (contained : p.Contains (a, n)) {owner : Path} {m : String} (gives : n.GivesMember owner m)
    (isGlobal : Scope.isGlobal a.scopes owner.root = true) :
    (Namespace.ofProgram p).PrototypeHas owner m := by
  obtain ⟨before, after, visits⟩ := contained.visits gives.isName
  obtain ⟨use, _, here, rfl⟩ := visits.walked
  obtain ⟨there, _, _, _, has⟩ := gives.gives isGlobal use before here (Grows.refl _)
  exact has.grows there.forest visits.leaves

end NameAudit
