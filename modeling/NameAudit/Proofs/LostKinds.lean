import NameAudit.Proofs.LostKnowledge

/-!
Names whose kind is lost, as it is where the values that are assigned to a name disagree. A name of no
certain kind may have any member, unless it is `X.superClass_` and `X` inherits from a marked
constructor: then its members are those of the constructor. So where `X.superClass_` was a class that
extends another, a reference to one of its members can come to be reported.
-/
namespace NameAudit

namespace Namespace

/-- A name gets the kind that is left when the values assigned to it disagree. -/
def withoutKind (ns : Namespace) (n : NameId) : Namespace :=
  ns.modifyName n fun m => { m with kind := .other }

theorem eq_of_parts {a b : Namespace} (names : a.names = b.names) (refs : a.refs = b.refs)
    (roots : a.roots = b.roots) : a = b := by
  cases a
  cases b
  cases names
  cases refs
  cases roots
  rfl

theorem blurs_withoutKind (ns : Namespace) (n : NameId) : ns.Blurs (ns.withoutKind n) :=
  blurs_modifyName ns n fun _ => ⟨rfl, fun unknown => unknown, Nat.le_refl _, List.Subset.refl _⟩

theorem keepsKind_withoutKind {ns : Namespace} {n : NameId}
    (harmless : ∀ y, ns.PassesOn y (ns.name n) → ¬ (ns.name n).InheritsByKind) (id : NameId) :
    KeepsKind ns (ns.withoutKind n) id := by
  rw [KeepsKind, withoutKind, name_modifyName]
  split
  next here => exact .inr ⟨rfl, here.1 ▸ harmless⟩
  next => exact .inl rfl

/-- When the kind of a name of a program is lost, no reference to an undefined name is added, unless a
    marked constructor passes its members on to the name and it is a class that extends another or a
    marked function. -/
theorem ofProgram_withoutKind_reports_fewer (p : Program) (graph : ChunkGraph) {n : NameId}
    (harmless : ∀ y, (ofProgram p).PassesOn y ((ofProgram p).name n) →
      ¬ ((ofProgram p).name n).InheritsByKind) {i : RefId}
    (reported : ((ofProgram p).withoutKind n).ReportsUndefined graph i) :
    (ofProgram p).ReportsUndefined graph i := by
  have blurs := blurs_withoutKind (ofProgram p) n
  have kinds := keepsKind_withoutKind harmless
  exact blurs.outline.reports_fewer (ofProgram_forest p)
    (fun _ => blurs.isDefinedProperty kinds) reported

/-- In `var a = {}; a.x(); var b = {}; b.y();` no constructor passes its members on to `a`. Without
    the kind of `a`, only `b.y` is reported. -/
theorem ofProgram_withoutKind_reports_fewer_object :
    ∃ (p : Program) (n : NameId) (i j : RefId),
      (∀ y, (ofProgram p).PassesOn y ((ofProgram p).name n) →
        ¬ ((ofProgram p).name n).InheritsByKind) ∧
      ((ofProgram p).withoutKind n).ReportsUndefined p.graph i ∧
      (ofProgram p).ReportsUndefined p.graph i ∧
      (ofProgram p).ReportsUndefined p.graph j ∧
      ¬ ((ofProgram p).withoutKind n).ReportsUndefined p.graph j := by
  let body : List Stmt :=
    [.mk ⟨0, 11⟩ none (.vars .var [.mk (.ident ⟨4, 5⟩ "a") (some (.object ⟨8, 10⟩ []))]),
      .mk ⟨12, 18⟩ none (.expr (.call ⟨12, 17⟩ false
        (.member ⟨12, 15⟩ false (.ident ⟨12, 13⟩ "a") "x") [])),
      .mk ⟨19, 30⟩ none (.vars .var [.mk (.ident ⟨23, 24⟩ "b") (some (.object ⟨27, 29⟩ []))]),
      .mk ⟨31, 37⟩ none (.expr (.call ⟨31, 36⟩ false
        (.member ⟨31, 34⟩ false (.ident ⟨31, 32⟩ "b") "y") []))]
  let p := Program.ofStatements body
  have harmless : ∀ y, (ofProgram p).PassesOn y ((ofProgram p).name ⟨0⟩) →
      ¬ ((ofProgram p).name ⟨0⟩).InheritsByKind := by
    have other : ((ofProgram p).name ⟨0⟩).baseName ≠ inheritedKey := by decide +kernel
    exact fun y passes => absurd passes.key other
  have still : ((ofProgram p).withoutKind ⟨0⟩).ReportsUndefined p.graph ⟨3⟩ :=
    (reportsUndefined_iff _).mpr
      ⟨⟨3⟩, by decide +kernel, ⟨3⟩, by decide +kernel, by decide +kernel⟩
  refine ⟨p, ⟨0⟩, ⟨3⟩, ⟨1⟩, harmless, still,
    ofProgram_withoutKind_reports_fewer p p.graph harmless still, ?_, fun reported => ?_⟩
  · exact (reportsUndefined_iff _).mpr
      ⟨⟨1⟩, by decide +kernel, ⟨1⟩, by decide +kernel, by decide +kernel⟩
  · have rest : ∀ v ∈ ((ofProgram p).withoutKind ⟨0⟩).definedness, v.2 = false →
        ∀ k ∈ ((ofProgram p).withoutKind ⟨0⟩).refsOf v.1,
          (((ofProgram p).withoutKind ⟨0⟩).ref k).id ≠ ⟨1⟩ := by decide +kernel
    obtain ⟨id, visited, k, member, number, _⟩ := (reportsUndefined_iff _).mp reported
    exact rest _ visited rfl k member number

/-- Let `X` inherit from a marked constructor. `X.superClass_ = class {};` and
    `X.superClass_ = class extends f() {};` leave it a class, and then `X.superClass_.m` may be
    inherited. With a number in place of the first class only the kind is lost, and the reference is
    reported. -/
theorem reported_without_kind :
    ∃ (p q : Program) (n : NameId) (i : RefId),
      ofProgram q = (ofProgram p).withoutKind n ∧
      ¬ (ofProgram p).ReportsUndefined p.graph i ∧
      ((ofProgram p).withoutKind n).ReportsUndefined p.graph i := by
  let superclass (a b c : Nat) : Expr := .member ⟨a, c⟩ false (.ident ⟨a, b⟩ "X") inheritedKey
  let body (first : Expr) : List Stmt :=
    [.mk ⟨20, 35⟩ (some ⟨⟨0, 19⟩, "/** @constructor */"⟩)
        (.funcDecl "Y" ⟨29, 30⟩ (.mk ⟨20, 35⟩ false false false [] (.block []))),
      .mk ⟨36, 51⟩ none
        (.funcDecl "X" ⟨45, 46⟩ (.mk ⟨36, 51⟩ false false false [] (.block []))),
      .mk ⟨52, 66⟩ none (.expr (.call ⟨52, 65⟩ false
        (.member ⟨52, 62⟩ false (.ident ⟨52, 53⟩ "X") "inherits")
        [.mk ⟨63, 64⟩ false (.ident ⟨63, 64⟩ "Y")])),
      .mk ⟨67, 92⟩ none (.expr (.assign ⟨67, 91⟩ .plain (superclass 67 68 80) first)),
      .mk ⟨93, 130⟩ none (.expr (.assign ⟨93, 129⟩ .plain (superclass 93 94 106)
        (.classExpr ⟨109, 129⟩ none
          (some (.call ⟨123, 126⟩ false (.ident ⟨123, 124⟩ "f") [])) []))),
      .mk ⟨131, 149⟩ none (.expr (.call ⟨131, 148⟩ false
        (.member ⟨131, 146⟩ false (superclass 131 132 144) "m") []))]
  let p := Program.ofStatements (body (.classExpr ⟨83, 91⟩ none none []))
  let q := Program.ofStatements (body (.literal ⟨83, 91⟩ (.number "12345678")))
  have names : (ofProgram q).names = ((ofProgram p).withoutKind ⟨3⟩).names := by decide +kernel
  have refs : (ofProgram q).refs = ((ofProgram p).withoutKind ⟨3⟩).refs := by decide +kernel
  have roots : (ofProgram q).roots = ((ofProgram p).withoutKind ⟨3⟩).roots := by decide +kernel
  have defined : ∀ v ∈ (ofProgram p).definedness, v.2 = true := by decide +kernel
  refine ⟨p, q, ⟨3⟩, ⟨7⟩, eq_of_parts names refs roots, fun reported => ?_, ?_⟩
  · obtain ⟨id, visited, _⟩ := (reportsUndefined_iff _).mp reported
    cases defined _ visited
  · exact (reportsUndefined_iff _).mpr
      ⟨⟨5⟩, by decide +kernel, ⟨7⟩, by decide +kernel, by decide +kernel⟩

end Namespace
end NameAudit
