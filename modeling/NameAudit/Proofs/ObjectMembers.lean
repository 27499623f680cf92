import NameAudit.Proofs.ImpliedMembers
import NameAudit.Proofs.PrototypeMembers

/-!
Members that a program gives to all objects. Whatever `Object.prototype` is given, anywhere in the program and no matter
in which order things are evaluated, is a member of the value of every name (`Program.Contains.isObjectMember`). So no
name with that base name fails, and no undefined reference is reported under one.
-/
namespace NameAudit

/-- A node gives a member to all objects. -/
inductive Node.GivesAllObjects (m : String) : Node → Prop
  /-- `=`, a pattern or the head of a loop assigns `Object.prototype.m`, or a member below it. -/
  | assigned {n : Node} {target : Expr} {deeper : List String} (assigns : n.Assigns target)
      (isMember : target.path? = some ⟨"Object", "prototype" :: m :: deeper⟩) : GivesAllObjects m n
  /-- An object literal with the key `m` is assigned to `Object.prototype`. -/
  | literal {span literalSpan : Span} {target : Expr} {members : List Member}
      (isPrototype : target.path? = some ⟨"Object", ["prototype"]⟩) (key : ∃ x ∈ members, x.HasKey m) :
      GivesAllObjects m (.expr (.assign span .plain target (.object literalSpan members)))
  /-- A statement with a comment is nothing but `Object.prototype.m`, or a member below it. -/
  | declared {span : Span} {doc : DocComment} {e : Expr} {deeper : List String}
      (isMember : e.path? = some ⟨"Object", "prototype" :: m :: deeper⟩) :
      GivesAllObjects m (.stmt (.mk span (some doc) (.expr e)))

theorem Path.beforePrototype?_of_member (root m : String) (deeper : List String) :
    Path.beforePrototype? ⟨root, "prototype" :: m :: deeper⟩ = some (⟨root, []⟩, some m) := by
  simp [beforePrototype?]

theorem Path.beforePrototype?_of_prototype (root : String) :
    Path.beforePrototype? ⟨root, ["prototype"]⟩ = some (⟨root, []⟩, none) := by
  simp [beforePrototype?]

theorem Node.GivesAllObjects.givesMember {m : String} {n : Node} (gives : n.GivesAllObjects m) :
    n.GivesMember ⟨"Object", []⟩ m := by
  cases gives with
  | assigned assigns isMember => exact .assigned assigns isMember (Path.beforePrototype?_of_member _ _ _)
  | literal isPrototype key => exact .literal isPrototype (Path.beforePrototype?_of_prototype _) key
  | declared isMember => exact .declared isMember (Path.beforePrototype?_of_member _ _ _)

namespace Namespace

section
variable {ns : Namespace} {m : String}

/-- What the prototype of a root is known to have, the check finds there. -/
theorem PrototypeHas.rootPrototypeHas {root : String} (has : ns.PrototypeHas ⟨root, []⟩ m) (forest : ns.Forest) :
    ns.rootPrototypeHas root m = true := by
  obtain ⟨id, spelled, known⟩ := has
  have isRoot := spelled.isRoot forest
  have base : (ns.name id).baseName = root := by
    have last := spelled.baseName
    simpa using last.symm
  refine (rootPrototypeHas_iff root m).mpr ⟨id, ?_, known⟩
  exact (forest.root?_eq_some_iff id root).mpr ⟨spelled.has, isRoot, base⟩

/-- A member of all objects is a member of the value of each name. -/
theorem isDefinedProperty_of_isObjectMember {u : NameId}
    (member : ns.isObjectMember (ns.name u).baseName = true) : ns.isDefinedProperty u = true := by
  refine (isDefinedProperty_iff u).mpr fun q _ => .inr ?_
  exact (isImpliedMember_iff q _).mpr (.inr (.inr (.inl member)))

end
end Namespace

theorem Program.Contains.isObjectMember {p : Program} {a : Surroundings} {n : Node} {m : String}
    (contained : p.Contains (a, n)) (gives : n.GivesAllObjects m)
    (isGlobal : Scope.isGlobal a.scopes "Object" = true) : (Namespace.ofProgram p).isObjectMember m = true := by
  have has := contained.prototypeHas gives.givesMember isGlobal
  rw [Namespace.isObjectMember, has.rootPrototypeHas (Namespace.ofProgram_forest p), Bool.or_true]

namespace Namespace

/-- Where a program gives a member to all objects, no name with that base name fails, and no undefined reference is
reported under one. -/
theorem ofProgram_exempts_object_members (p : Program) (graph : ChunkGraph) {a : Surroundings} {n : Node} {m : String}
    (contained : p.Contains (a, n)) (gives : n.GivesAllObjects m)
    (isGlobal : Scope.isGlobal a.scopes "Object" = true) :
    (∀ u, ((ofProgram p).name u).baseName = m → (ofProgram p).isDefinedProperty u = true) ∧
    ∀ f ∈ (ofProgram p).findings graph, f.problem = .undefined →
      ∃ u, (ofProgram p).IsOutermostFailure ((ofProgram p).ref f.reference).name u ∧
        f.name = ((ofProgram p).name u).fullName ∧ ((ofProgram p).name u).baseName ≠ m := by
  have member := contained.isObjectMember gives isGlobal
  have defined : ∀ u, ((ofProgram p).name u).baseName = m → (ofProgram p).isDefinedProperty u = true := by
    rintro u rfl
    exact isDefinedProperty_of_isObjectMember member
  refine ⟨defined, fun f listed undefined => ?_⟩
  obtain ⟨u, failure, same⟩ :=
    exists_failure_of_undefined (ofProgram_forest p) (ofProgram_tallied p) listed undefined
  refine ⟨u, failure, same, fun base => ?_⟩
  cases failure.fails.symm.trans (defined u base)

/-- In `var a = {}, s = {}; a.m.n(); a.s(); a.p(); a.d(); a.k(); Object.prototype = { s, p: 1 };`, followed by
`/** Any. */ Object.prototype.d; function f() { [Object.prototype.m.x] = 1; }`, only `a.k` is reported. -/
theorem ofProgram_exempts_members_of_each_kind : ∃ p : Program,
    (∀ m ∈ ["s", "p", "d", "m"], ∃ (a : Surroundings) (n : Node),
      p.Contains (a, n) ∧ n.GivesAllObjects m ∧ Scope.isGlobal a.scopes "Object" = true ∧
        ((∀ u, ((ofProgram p).name u).baseName = m → (ofProgram p).isDefinedProperty u = true) ∧
          ∀ f ∈ (ofProgram p).findings p.graph, f.problem = .undefined →
            ∃ u, (ofProgram p).IsOutermostFailure ((ofProgram p).ref f.reference).name u ∧
              f.name = ((ofProgram p).name u).fullName ∧ ((ofProgram p).name u).baseName ≠ m)) ∧
      ((ofProgram p).findings p.graph).map (fun f => (f.name, f.problem)) = [("a.k", .undefined)] := by
  let object (start : Nat) (name : String) : Declarator :=
    .mk (.ident ⟨start, start + 1⟩ name) (some (.object ⟨start + 4, start + 6⟩ []))
  let memberOfA (start : Nat) (name : String) : Expr :=
    .member ⟨start, start + 3⟩ false (.ident ⟨start, start + 1⟩ "a") name
  let called (span : Span) (callee : Expr) : Stmt :=
    .mk ⟨span.start, span.stop + 3⟩ none (.expr (.call ⟨span.start, span.stop + 2⟩ false callee []))
  let prototype (start : Nat) : Expr :=
    .member ⟨start, start + 16⟩ false (.ident ⟨start, start + 6⟩ "Object") "prototype"
  let members : List Member :=
    [.shorthand ⟨78, 79⟩ "s" ⟨78, 79⟩,
      .property ⟨81, 85⟩ (.direct "p") (.value (some (.literal ⟨84, 85⟩ (.number "1"))))]
  let literal : Expr := .assign ⟨57, 87⟩ .plain (prototype 57) (.object ⟨76, 87⟩ members)
  let given : Stmt := .mk ⟨57, 88⟩ none (.expr literal)
  let declared : Stmt :=
    .mk ⟨101, 120⟩ (some ⟨⟨89, 100⟩, "/** Any. */"⟩) (.expr (.member ⟨101, 119⟩ false (prototype 101) "d"))
  let target : Expr := .member ⟨137, 157⟩ false (.member ⟨137, 155⟩ false (prototype 137) "m") "x"
  let assignment : Expr := .assign ⟨136, 162⟩ .plain
    (.destructuring (.array ⟨136, 158⟩ [.item (.target target) none] none)) (.literal ⟨161, 162⟩ (.number "1"))
  let function : Stmt := .mk ⟨121, 165⟩ none (.funcDecl "f" ⟨130, 131⟩
    (.mk ⟨121, 165⟩ false false false [] (.block [.mk ⟨136, 163⟩ none (.expr assignment)])))
  let body : List Stmt :=
    [.mk ⟨0, 18⟩ none (.vars .var [object 4 "a", object 12 "s"]),
      called ⟨20, 25⟩ (.member ⟨20, 25⟩ false (memberOfA 20 "m") "n"), called ⟨29, 32⟩ (memberOfA 29 "s"),
      called ⟨36, 39⟩ (memberOfA 36 "p"), called ⟨43, 46⟩ (memberOfA 43 "d"), called ⟨50, 53⟩ (memberOfA 50 "k"),
      given, declared, function]
  let p := Program.ofStatements body
  have held {s : Stmt} (member : s ∈ body) : p.Contains (⟨.chunk ⟨0⟩, ⟨0⟩, []⟩, .stmt s) :=
    (Program.contains_ofStatements body).part (List.mem_map_of_mem member)
  have literalHeld := (held (s := given) (by simp [body])).part List.mem_cons_self
  have declaredHeld := held (s := declared) (by simp [body])
  have functionHeld := (held (s := function) (by simp [body])).part List.mem_cons_self
  have inside := functionHeld.part List.mem_cons_self |>.part List.mem_cons_self |>.part List.mem_cons_self
  have targetHeld := inside.part List.mem_cons_self |>.part List.mem_cons_self
  have shorthand : ∃ x ∈ members, x.HasKey "s" := ⟨_, List.mem_cons_self, rfl⟩
  have property : ∃ x ∈ members, x.HasKey "p" := ⟨_, List.mem_cons_of_mem _ List.mem_cons_self, rfl⟩
  have routes : ∀ m ∈ ["s", "p", "d", "m"], ∃ (a : Surroundings) (n : Node), p.Contains (a, n) ∧
      n.GivesAllObjects m ∧ Scope.isGlobal a.scopes "Object" = true := by
    simp only [List.forall_mem_cons]
    exact ⟨⟨_, _, literalHeld, .literal rfl shorthand, rfl⟩, ⟨_, _, literalHeld, .literal rfl property, rfl⟩,
      ⟨_, _, declaredHeld, .declared rfl, rfl⟩, ⟨_, _, targetHeld, .assigned rfl rfl, by decide⟩, nofun⟩
  refine ⟨p, fun m member => ?_, by decide +kernel⟩
  obtain ⟨a, n, contained, gives, isGlobal⟩ := routes m member
  exact ⟨a, n, contained, gives, isGlobal, ofProgram_exempts_object_members p _ contained gives isGlobal⟩

end Namespace
end NameAudit
