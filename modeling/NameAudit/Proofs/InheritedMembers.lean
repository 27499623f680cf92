import NameAudit.Proofs.ImpliedMembers
import NameAudit.Proofs.PrototypeMembers

/-!
Members of `X.superClass_`, where `X` inherits from a constructor. One is reported only if the
constructor is a marked function that lacks the member: neither is it set on the function, nor does the
program give it to the prototype anywhere. Whether the prototype has other members that are not known,
because something else was assigned to it as a whole, plays no part.
-/
namespace NameAudit

/-- A marked function lacks a member: it is not set on the function, and nowhere does the program give
    it to the prototype. -/
structure Program.LacksMember (p : Program) (y : NameId) (base : String) : Prop where
  kind : ((Namespace.ofProgram p).name y).kind = .func
  marked : ((Namespace.ofProgram p).name y).declaredType = true
  unset : (Namespace.ofProgram p).hasDefinedChild y base = false
  notGiven : ∀ a n owner, p.Contains (a, n) → n.GivesMember owner base →
    Scope.isGlobal a.scopes owner.root = true →
      ¬ Namespace.Spelled (Namespace.ofProgram p) y (owner.root :: owner.members)

namespace Namespace

/-- A member of `X.superClass_` fails where a constructor does not pass it on. -/
theorem exists_passesOn_of_fails {ns : Namespace} {s u : NameId}
    (fails : ns.isDefinedProperty u = false) (below : (ns.name u).parent = some s)
    (unstructured : ¬ (ns.name s).IsStructured) :
    ∃ y, ns.PassesOn y (ns.name s) ∧ ns.hasDefinedChild y (ns.name u).baseName = false ∧
      (ns.name u).baseName ∉ (ns.name y).prototypeMembers := by
  have notInherited : ¬ ns.inheritsMember (ns.name s) (ns.name u).baseName = true := by
    intro inherited
    have implied := (isImpliedMember_iff s (ns.name u).baseName).mpr
      (.inr (.inr (.inr (.inr (.inr ⟨unstructured, inherited⟩)))))
    have defined : ns.isDefinedProperty u = true := by
      refine (isDefinedProperty_iff u).mpr fun q parent => .inr ?_
      obtain rfl : s = q := Option.some_inj.mp (below.symm.trans parent)
      exact implied
    cases fails.symm.trans defined
  rw [inheritsMember_iff] at notInherited
  push Not at notInherited
  obtain ⟨y, passes, unset, absent⟩ := notInherited
  exact ⟨y, passes, Bool.eq_false_iff.mpr unset, absent⟩

/-- Let `X` inherit from `Y`, and let `X.superClass_` be assigned no object literal, class or marked
    function. Then a reference is reported under a member of `X.superClass_` only if `Y` is a marked
    function that lacks the member. -/
theorem ofProgram_inherits_members (p : Program) (graph : ChunkGraph) {x y s : NameId}
    (inherits : ((ofProgram p).name x).inheritsFrom = some y)
    (below : ((ofProgram p).name s).parent = some x)
    (unstructured : ¬ ((ofProgram p).name s).IsStructured) :
    ∀ f ∈ (ofProgram p).findings graph, f.problem = .undefined →
      ∃ u, (ofProgram p).IsOutermostFailure ((ofProgram p).ref f.reference).name u ∧
        f.name = ((ofProgram p).name u).fullName ∧
        (((ofProgram p).name u).parent = some s →
          p.LacksMember y ((ofProgram p).name u).baseName) := by
  intro f member undefined
  have forest := ofProgram_forest p
  obtain ⟨u, failure, same⟩ :=
    exists_failure_of_undefined forest (ofProgram_tallied p) member undefined
  refine ⟨u, failure, same, fun parent => ?_⟩
  obtain ⟨z, passes, unset, absent⟩ :=
    exists_passesOn_of_fails failure.fails parent unstructured
  obtain rfl := passes.eq_of_inherits below inherits
  refine ⟨passes.kind, passes.marked, unset, fun a n owner contained gives isGlobal spelled => ?_⟩
  obtain ⟨id, alsoSpelled, known⟩ := contained.prototypeHas gives isGlobal
  exact absent (forest.eq_of_spelled alsoSpelled spelled ▸ known)

/-- In `/** @constructor */ function Y() {} Y.prototype = f(); Y.prototype.k = 1; function X() {}
    X.inherits(Y); X.superClass_.k(); X.superClass_.m();`, only `X.superClass_.m` is reported. -/
theorem ofProgram_inherits_members_given :
    ∃ (p : Program) (x y s : NameId), ((ofProgram p).name x).inheritsFrom = some y ∧
      ((ofProgram p).name s).parent = some x ∧ ¬ ((ofProgram p).name s).IsStructured ∧
      (∀ f ∈ (ofProgram p).findings p.graph, f.problem = .undefined →
        ∃ u, (ofProgram p).IsOutermostFailure ((ofProgram p).ref f.reference).name u ∧
          f.name = ((ofProgram p).name u).fullName ∧
          (((ofProgram p).name u).parent = some s →
            p.LacksMember y ((ofProgram p).name u).baseName)) ∧
      ((ofProgram p).name s).baseName = inheritedKey ∧
      ((ofProgram p).findings p.graph).map (fun f => (f.name, f.problem)) =
        [("X.superClass_.m", .undefined)] := by
  let noBody (span : Span) : Func := .mk span false false false [] (.block [])
  let prototype (span owner : Span) : Expr := .member span false (.ident owner "Y") "prototype"
  let superclass (span owner : Span) : Expr := .member span false (.ident owner "X") inheritedKey
  let body : List Stmt :=
    [.mk ⟨20, 35⟩ (some ⟨⟨0, 19⟩, "/** @constructor */"⟩)
        (.funcDecl "Y" ⟨29, 30⟩ (noBody ⟨20, 35⟩)),
      .mk ⟨36, 54⟩ none (.expr (.assign ⟨36, 53⟩ .plain (prototype ⟨36, 47⟩ ⟨36, 37⟩)
        (.call ⟨50, 53⟩ false (.ident ⟨50, 51⟩ "f") []))),
      .mk ⟨55, 73⟩ none (.expr (.assign ⟨55, 72⟩ .plain
        (.member ⟨55, 68⟩ false (prototype ⟨55, 66⟩ ⟨55, 56⟩) "k")
        (.literal ⟨71, 72⟩ (.number "1")))),
      .mk ⟨74, 89⟩ none (.funcDecl "X" ⟨83, 84⟩ (noBody ⟨74, 89⟩)),
      .mk ⟨90, 104⟩ none (.expr (.call ⟨90, 103⟩ false
        (.member ⟨90, 100⟩ false (.ident ⟨90, 91⟩ "X") "inherits")
        [.mk ⟨101, 102⟩ false (.ident ⟨101, 102⟩ "Y")])),
      .mk ⟨105, 123⟩ none (.expr (.call ⟨105, 122⟩ false
        (.member ⟨105, 120⟩ false (superclass ⟨105, 118⟩ ⟨105, 106⟩) "k") [])),
      .mk ⟨124, 142⟩ none (.expr (.call ⟨124, 141⟩ false
        (.member ⟨124, 139⟩ false (superclass ⟨124, 137⟩ ⟨124, 125⟩) "m") []))]
  have inherits : ((ofProgram (.ofStatements body)).name ⟨1⟩).inheritsFrom = some ⟨0⟩ := by
    decide +kernel
  have below : ((ofProgram (.ofStatements body)).name ⟨4⟩).parent = some ⟨1⟩ := by decide +kernel
  have unstructured : ¬ ((ofProgram (.ofStatements body)).name ⟨4⟩).IsStructured := by
    decide +kernel
  exact ⟨.ofStatements body, ⟨1⟩, ⟨0⟩, ⟨4⟩, inherits, below, unstructured,
    ofProgram_inherits_members _ _ inherits below unstructured, by decide +kernel,
    by decide +kernel⟩

/-- In `/** @constructor */ function Y() {} Y.prototype = f(); function X() {} X.inherits(Y);
    X.superClass_.m();`, the prototype of `Y` can have any member, and `X.superClass_.m` is reported. -/
theorem reported_under_replaced_prototype :
    ∃ (p : Program) (x y s u : NameId) (a : Surroundings) (span : Span) (target value : Expr)
      (owner : Path) (f : Finding),
      let ns := ofProgram p
      (ns.name x).inheritsFrom = some y ∧
      p.Contains (a, .expr (.assign span .plain target value)) ∧
      target.path? = some (owner.push "prototype") ∧ value.literalKeys? = none ∧
      Scope.isGlobal a.scopes owner.root = true ∧ Spelled ns y (owner.root :: owner.members) ∧
      f ∈ ns.findings p.graph ∧ f.problem = .undefined ∧ f.name = (ns.name u).fullName ∧
      (ns.name u).parent = some s ∧ (ns.name s).baseName = inheritedKey ∧
      (ns.name s).parent = some x ∧ (ns.name s).isDefined = false := by
  let noBody (span : Span) : Func := .mk span false false false [] (.block [])
  let target : Expr := .member ⟨36, 47⟩ false (.ident ⟨36, 37⟩ "Y") "prototype"
  let value : Expr := .call ⟨50, 53⟩ false (.ident ⟨50, 51⟩ "f") []
  let assignment : Stmt := .mk ⟨36, 54⟩ none (.expr (.assign ⟨36, 53⟩ .plain target value))
  let body : List Stmt :=
    [.mk ⟨20, 35⟩ (some ⟨⟨0, 19⟩, "/** @constructor */"⟩)
        (.funcDecl "Y" ⟨29, 30⟩ (noBody ⟨20, 35⟩)),
      assignment,
      .mk ⟨55, 70⟩ none (.funcDecl "X" ⟨64, 65⟩ (noBody ⟨55, 70⟩)),
      .mk ⟨71, 85⟩ none (.expr (.call ⟨71, 84⟩ false
        (.member ⟨71, 81⟩ false (.ident ⟨71, 72⟩ "X") "inherits")
        [.mk ⟨82, 83⟩ false (.ident ⟨82, 83⟩ "Y")])),
      .mk ⟨86, 104⟩ none (.expr (.call ⟨86, 103⟩ false (.member ⟨86, 101⟩ false
        (.member ⟨86, 99⟩ false (.ident ⟨86, 87⟩ "X") inheritedKey) "m") []))]
  have contained := (Program.contains_ofStatements body).part
    (List.mem_cons_of_mem _ List.mem_cons_self) |>.part List.mem_cons_self
  have found : (ofProgram (.ofStatements body)).findings (Program.ofStatements body).graph =
      [⟨⟨6⟩, "X.superClass_.m", .undefined⟩] := by decide +kernel
  have root : ((ofProgram (.ofStatements body)).name ⟨0⟩).parent = none := by decide +kernel
  have spelled : Spelled (ofProgram (.ofStatements body)) ⟨0⟩ ["Y"] := by
    refine ⟨by decide +kernel, ?_⟩
    rw [spelling_of_root root]
    decide +kernel
  refine ⟨.ofStatements body, ⟨1⟩, ⟨0⟩, ⟨4⟩, ⟨5⟩, _, _, target, value, ⟨"Y", []⟩,
    ⟨⟨6⟩, "X.superClass_.m", .undefined⟩, by decide +kernel, contained, rfl, rfl, rfl, spelled, ?_,
    rfl, by decide +kernel, by decide +kernel, by decide +kernel, by decide +kernel,
    by decide +kernel⟩
  rw [found]
  exact List.mem_cons_self

end Namespace
end NameAudit
