import NameAudit.Proofs.ImpliedMembers
import NameAudit.Proofs.Outlines

/-!
Losing knowledge about what names hold. A name can turn out to have members that are not known, to be
reachable on further paths, to have further members on its prototype, or to be of no certain kind. The
first three only add reasons for which a name that nothing sets is a member of its parent. So does the
last, except at `X.superClass_` where `X` inherits from a marked constructor: there the members are then
those of the constructor, and a class that extends another and a marked function have others. Where no
reason is lost, undefined names can only become fewer; what orders the references does not change.
-/
namespace NameAudit

/-- The knowledge about `m` is no more than that about `n`: its members need not all be known, it may be
    reachable on further paths, and its prototype may have further members. -/
structure Name.Blurs (n m : Name) : Prop where
  outline : m.outline = n.outline
  hasUnknownMembers : n.hasUnknownMembers = true → m.hasUnknownMembers = true
  aliasingGets : n.aliasingGets ≤ m.aliasingGets
  prototypeMembers : n.prototypeMembers ⊆ m.prototypeMembers

theorem Name.Blurs.refl (n : Name) : n.Blurs n :=
  ⟨rfl, fun unknown => unknown, Nat.le_refl _, List.Subset.refl _⟩

/-- The kind of a name lets it have members of its own: it is a class that extends another, or a
    function that a comment marks. -/
def Name.InheritsByKind (n : Name) : Prop :=
  n.kind = .classDef ∧ n.superclass ≠ none ∨ n.kind = .func ∧ n.declaredType = true

namespace Namespace

/-- Some names are known less, and nothing else differs but their kinds. -/
structure Blurs (old new : Namespace) : Prop where
  size : new.names.size = old.names.size
  refs : new.refs = old.refs
  roots : new.roots = old.roots
  name : ∀ id, (old.name id).Blurs (new.name id)

/-- A name keeps its kind, or gets no certain one where that loses no members. -/
def KeepsKind (old new : Namespace) (id : NameId) : Prop :=
  (new.name id).kind = (old.name id).kind ∨ (new.name id).kind = .other ∧
    ∀ y, old.PassesOn y (old.name id) → ¬ (old.name id).InheritsByKind

theorem blurs_modifyName (ns : Namespace) (id : NameId) {f : Name → Name}
    (blurs : ∀ n, Name.Blurs n (f n)) : ns.Blurs (ns.modifyName id f) where
  size := Array.size_modify
  refs := rfl
  roots := rfl
  name j := by
    rw [name_modifyName]
    split
    · exact blurs _
    · exact .refl _

theorem KeepsKind.kind_eq {old new : Namespace} {id : NameId} (keeps : KeepsKind old new id)
    {kind : NameKind} (certain : kind ≠ .other) (ofKind : (new.name id).kind = kind) :
    (old.name id).kind = kind := by
  rcases keeps with same | ⟨lost, _⟩
  · exact same.symm.trans ofKind
  · exact absurd (ofKind.symm.trans lost) certain

namespace Blurs

variable {old new : Namespace} (blurs : Blurs old new)
include blurs

theorem outline : SameOutline old new :=
  ⟨blurs.size, blurs.refs, blurs.roots, fun id => (blurs.name id).outline⟩

/-! ### Reasons -/

theorem isOpen {id : NameId} (isOpen : old.IsOpen id) : new.IsOpen id := by
  rcases isOpen with hidden | ⟨a, above, aliased⟩
  · exact .inl ((blurs.name id).hasUnknownMembers hidden)
  · refine .inr ⟨a, ?_, Nat.lt_of_lt_of_le aliased (blurs.name a).aliasingGets⟩
    rwa [blurs.outline.selfAndAncestors]

theorem rootPrototypeHas {root base : String} (has : old.rootPrototypeHas root base = true) :
    new.rootPrototypeHas root base = true := by
  obtain ⟨id, found, member⟩ := (rootPrototypeHas_iff root base).mp has
  refine (rootPrototypeHas_iff root base).mpr ⟨id, ?_, (blurs.name id).prototypeMembers member⟩
  rwa [blurs.outline.root?]

theorem isObjectMember {base : String} (member : old.isObjectMember base = true) :
    new.isObjectMember base = true := by
  simp only [Namespace.isObjectMember, Bool.or_eq_true] at member ⊢
  exact member.imp_right blurs.rootPrototypeHas

theorem isFunctionMember {base : String} (member : old.isFunctionMember base = true) :
    new.isFunctionMember base = true := by
  simp only [Namespace.isFunctionMember, Bool.or_eq_true] at member ⊢
  exact member.imp_right blurs.rootPrototypeHas

variable (kinds : ∀ id, KeepsKind old new id)
include kinds

theorem hasKnownStatics {id : NameId} (known : new.hasKnownStatics id = true) :
    old.hasKnownStatics id = true := by
  obtain ⟨isClass, extendsNothing, d, child, defined⟩ := (hasKnownStatics_iff id).mp known
  refine (hasKnownStatics_iff id).mpr ⟨(kinds id).kind_eq (by decide) isClass,
    blurs.outline.superclass id ▸ extendsNothing, d, ?_, blurs.outline.isDefined d ▸ defined⟩
  rwa [children, blurs.outline.children] at child

theorem inheritsStatic {superclass : Option Superclass} {base : String}
    (inherits : old.inheritsStatic superclass base = true) :
    new.inheritsStatic superclass base = true := by
  rw [inheritsStatic_iff] at inherits ⊢
  refine ⟨inherits.1, fun s known statics => ?_⟩
  rw [blurs.outline.hasDefinedChild]
  exact inherits.2 s known (blurs.hasKnownStatics kinds statics)

theorem passesOn {y id : NameId} (passes : new.PassesOn y (new.name id)) :
    old.PassesOn y (old.name id) := by
  obtain ⟨key, ⟨x, below, source⟩, isFunction, marked⟩ := passes
  exact ⟨blurs.outline.baseName id ▸ key,
    ⟨x, blurs.outline.parent id ▸ below, blurs.outline.inheritsFrom x ▸ source⟩,
    (kinds y).kind_eq (by decide) isFunction, blurs.outline.declaredType y ▸ marked⟩

theorem inheritsMember {id : NameId} {base : String}
    (inherits : old.inheritsMember (old.name id) base = true) :
    new.inheritsMember (new.name id) base = true := by
  refine (inheritsMember_iff _ base).mpr fun y passes => ?_
  rcases (inheritsMember_iff _ base).mp inherits y (blurs.passesOn kinds passes) with
    defined | member
  · exact .inl (blurs.outline.hasDefinedChild y base ▸ defined)
  · exact .inr ((blurs.name y).prototypeMembers member)

/-- A name that no constructor passes its members on to may have any member once its kind is lost. -/
theorem inheritsMember_of_not_passed {id : NameId} (base : String)
    (none : ∀ y, ¬ old.PassesOn y (old.name id)) :
    new.inheritsMember (new.name id) base = true :=
  (inheritsMember_iff _ base).mpr fun y passes => absurd (blurs.passesOn kinds passes) (none y)

/-- A reason for which a name that nothing sets is a member of its parent is not lost. -/
theorem isImpliedMember {id : NameId} {base : String}
    (implied : old.isImpliedMember id base = true) : new.isImpliedMember id base = true := by
  rw [isImpliedMember_iff] at implied ⊢
  rw [Name.IsStructured, blurs.outline.superclass, blurs.outline.declaredType]
  rcases implied with isOpen | key | object | byKind
  · exact .inl (blurs.isOpen isOpen)
  · exact .inr (.inl key)
  · exact .inr (.inr (.inl (blurs.isObjectMember object)))
  refine .inr (.inr (.inr ?_))
  rcases kinds id with same | ⟨lost, harmless⟩
  · rw [same]
    rcases byKind with ⟨isClass, static⟩ | ⟨isFunction, marked, member⟩ | ⟨unstructured, inherits⟩
    · exact .inl ⟨isClass, blurs.inheritsStatic kinds static⟩
    · exact .inr (.inl ⟨isFunction, marked, blurs.isFunctionMember member⟩)
    · exact .inr (.inr ⟨unstructured, blurs.inheritsMember kinds inherits⟩)
  · refine .inr (.inr ⟨by simp [lost], ?_⟩)
    rcases byKind with ⟨isClass, static⟩ | ⟨isFunction, marked, _⟩ | ⟨_, inherits⟩
    · have extendsAny := ((inheritsStatic_iff _ base).mp static).1
      exact blurs.inheritsMember_of_not_passed kinds base fun y passes =>
        harmless y passes (.inl ⟨isClass, extendsAny⟩)
    · exact blurs.inheritsMember_of_not_passed kinds base fun y passes =>
        harmless y passes (.inr ⟨isFunction, marked⟩)
    · exact blurs.inheritsMember kinds inherits

theorem isDefinedProperty {id : NameId} (defined : old.isDefinedProperty id = true) :
    new.isDefinedProperty id = true := by
  rw [isDefinedProperty_iff] at defined ⊢
  rw [blurs.outline.parent, blurs.outline.baseName, blurs.outline.isDefined]
  exact fun q below => (defined q below).imp_right (blurs.isImpliedMember kinds)

end Blurs

/-- When less is known about what names of a program hold, no reference to an undefined name is added,
    and the violations of dependencies are the same. -/
theorem ofProgram_blurred_reports_fewer (p : Program) (graph : ChunkGraph) {new : Namespace}
    (blurs : (ofProgram p).Blurs new)
    (kinds : ∀ id, (new.name id).kind = ((ofProgram p).name id).kind) :
    (∀ i, new.ReportsUndefined graph i → (ofProgram p).ReportsUndefined graph i) ∧
      (new.findings graph).filter (·.problem.kind = .strictDependency) =
        ((ofProgram p).findings graph).filter (·.problem.kind = .strictDependency) := by
  have forest := ofProgram_forest p
  refine ⟨fun i reported => ?_, ?_⟩
  · exact blurs.outline.reports_fewer forest
      (fun _ => blurs.isDefinedProperty fun id => .inl (kinds id)) reported
  · exact blurs.outline.filter_strict_findings forest (ofProgram_tallied p) graph

/-- Of two chunks without dependencies, the first has `var a = {}, b = {};` and the second
    `a.x(); b.y();`. Once `a` may have members that are not known, `a.x` is no longer undefined. -/
theorem ofProgram_blurred_reports_fewer_unknown_members :
    ∃ (p : Program) (new : Namespace), (ofProgram p).Blurs new ∧
      (∀ id, (new.name id).kind = ((ofProgram p).name id).kind) ∧
      ((∀ i, new.ReportsUndefined p.graph i → (ofProgram p).ReportsUndefined p.graph i) ∧
        (new.findings p.graph).filter (·.problem.kind = .strictDependency) =
          ((ofProgram p).findings p.graph).filter (·.problem.kind = .strictDependency)) ∧
      ((ofProgram p).findings p.graph).map (fun f => (f.name, f.problem.kind)) =
        [("a.x", .undefinedName), ("a.x", .strictDependency),
          ("b.y", .undefinedName), ("b.y", .strictDependency)] ∧
      (new.findings p.graph).map (fun f => (f.name, f.problem.kind)) =
        [("a.x", .strictDependency), ("b.y", .undefinedName), ("b.y", .strictDependency)] := by
  let graph : ChunkGraph := ⟨#[⟨"first", []⟩, ⟨"second", []⟩], [⟨0⟩, ⟨1⟩], #[[⟨0⟩], [⟨1⟩]]⟩
  let first := ((Program.ofGraph graph).addSource ⟨0⟩ "first.js" "var a = {}, b = {};").1
  let p := (first.addSource ⟨1⟩ "second.js" "a.x(); b.y();").1
  let hide : Name → Name := fun n => { n with hasUnknownMembers := true }
  have blurs : (ofProgram p).Blurs ((ofProgram p).modifyName ⟨0⟩ hide) :=
    blurs_modifyName _ _ fun n => ⟨rfl, fun _ => rfl, Nat.le_refl _, List.Subset.refl _⟩
  have kinds : ∀ id, (((ofProgram p).modifyName ⟨0⟩ hide).name id).kind =
      ((ofProgram p).name id).kind := by
    intro id
    rw [name_modifyName]
    split <;> rfl
  refine ⟨p, _, blurs, kinds, ofProgram_blurred_reports_fewer p p.graph blurs kinds, ?_, ?_⟩
  -- Sorting is no recursion that evaluates, but the names are already in the order of evaluation.
  all_goals
    rw [findings, List.mergeSort_of_pairwise (by decide +kernel)]
    decide +kernel

end Namespace
end NameAudit
