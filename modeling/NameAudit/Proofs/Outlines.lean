import NameAudit.Proofs.FindingOrder
import NameAudit.Proofs.Findings

/-!
Namespaces that differ only in what is known about the values of their names: of what kind they are
and which members they have. Where the names stand, what refers to them and what they are linked with
is their outline. Which names are checked, what orders a reference and what defines it is read off the
outline, so the violations of dependencies are the same (`SameOutline.filter_strict_findings`), and the
undefined names can only become fewer where each name stays defined (`SameOutline.reports_fewer`).
-/
namespace NameAudit

/-- A name without what is known about its value. -/
def Name.outline (n : Name) : Name :=
  { n with kind := .other, hasUnknownMembers := false, aliasingGets := 0, prototypeMembers := [] }

namespace Namespace

/-- The problems of a namespace hold one for a reference to an undefined name. -/
def ReportsUndefined (ns : Namespace) (graph : ChunkGraph) (i : RefId) : Prop :=
  ∃ f ∈ ns.findings graph, f.reference = i ∧ f.problem = .undefined

/-- Two namespaces differ at most in what is known about the values of their names. -/
structure SameOutline (old new : Namespace) : Prop where
  size : new.names.size = old.names.size
  refs : new.refs = old.refs
  roots : new.roots = old.roots
  outline : ∀ id, (new.name id).outline = (old.name id).outline

section
variable {ns : Namespace} {graph : ChunkGraph}

/-- The violations of dependencies are looked for at every checked name, defined or not. -/
theorem filter_strict_findingsByName (ns : Namespace) (graph : ChunkGraph) :
    (ns.findingsByName graph).filter (·.problem.kind = .strictDependency) =
      (ns.definedness.map (·.1)).flatMap fun id =>
        (ns.refsOf id).flatMap fun i => (ns.strictFinding? graph id (ns.ref i)).toList := by
  rw [findingsByName, List.filter_flatMap, List.flatMap_map]
  refine List.flatMap_congr fun visited _ => ?_
  rw [List.filter_flatMap]
  exact List.flatMap_congr fun i _ => filter_strict_findingsAt graph visited.1 visited.2 (ns.ref i)

/-- References to checked names that are not defined are reported unless something exempts them. -/
theorem reportsUndefined_iff (i : RefId) : ns.ReportsUndefined graph i ↔
    ∃ id, (id, false) ∈ ns.definedness ∧ ∃ j ∈ ns.refsOf id,
      (ns.ref j).id = i ∧ (ns.ref j).isStub = false ∧ (ns.ref j).exemption = .none := by
  have found : ∀ id d j f, f ∈ ns.findingsAt graph id d (ns.ref j) ∧ f.problem = .undefined ↔
      (d = false ∧ (ns.ref j).isStub = false ∧ (ns.ref j).exemption = .none) ∧
        f = ns.undefinedFinding id (ns.ref j) := by
    intro id d j f
    have undefined := congrArg (f ∈ ·) (@filter_undefined_findingsAt ns graph id d (ns.ref j))
    simp only [List.mem_filter, decide_eq_true_eq] at undefined
    rw [undefined]
    split
    next reported => simp [reported]
    next silent => simp [silent]
  have listed : ∀ f, f ∈ ns.findings graph ↔ f ∈ ns.findingsByName graph := fun f =>
    (List.mergeSort_perm _ _).mem_iff
  simp only [ReportsUndefined, listed, findingsByName, List.mem_flatMap]
  constructor
  · rintro ⟨f, ⟨⟨id, d⟩, visited, j, member, here⟩, rfl, undefined⟩
    obtain ⟨⟨rfl, unexempted⟩, rfl⟩ := (found id d j f).mp ⟨here, undefined⟩
    exact ⟨id, visited, j, member, rfl, unexempted⟩
  · rintro ⟨id, visited, j, member, rfl, unexempted⟩
    obtain ⟨here, undefined⟩ := (found id false j _).mpr ⟨⟨rfl, unexempted⟩, rfl⟩
    exact ⟨_, ⟨(id, false), visited, j, member, here⟩, rfl, undefined⟩

end

namespace SameOutline

variable {old new : Namespace} (same : SameOutline old new)
include same

/-! ### Names -/

theorem has (id : NameId) : new.Has id ↔ old.Has id := by
  rw [Has, Has, same.size]

theorem parent (id : NameId) : (new.name id).parent = (old.name id).parent :=
  (congrArg Name.parent (same.outline id) :)

theorem children (id : NameId) : (new.name id).children = (old.name id).children :=
  (congrArg Name.children (same.outline id) :)

theorem baseName (id : NameId) : (new.name id).baseName = (old.name id).baseName :=
  (congrArg Name.baseName (same.outline id) :)

theorem fullName (id : NameId) : (new.name id).fullName = (old.name id).fullName :=
  (congrArg Name.fullName (same.outline id) :)

theorem sets (id : NameId) : (new.name id).sets = (old.name id).sets :=
  (congrArg Name.sets (same.outline id) :)

theorem uses (id : NameId) : (new.name id).uses = (old.name id).uses :=
  (congrArg Name.uses (same.outline id) :)

theorem aliasOf (id : NameId) : (new.name id).aliasOf = (old.name id).aliasOf :=
  (congrArg Name.aliasOf (same.outline id) :)

theorem superclass (id : NameId) : (new.name id).superclass = (old.name id).superclass :=
  (congrArg Name.superclass (same.outline id) :)

theorem inheritsFrom (id : NameId) : (new.name id).inheritsFrom = (old.name id).inheritsFrom :=
  (congrArg Name.inheritsFrom (same.outline id) :)

theorem declaredType (id : NameId) : (new.name id).declaredType = (old.name id).declaredType :=
  (congrArg Name.declaredType (same.outline id) :)

theorem isDefined (id : NameId) : (new.name id).isDefined = (old.name id).isDefined :=
  congrArg (fun sets : List RefId => !sets.isEmpty) (same.sets id)

theorem forest (forest : old.Forest) : new.Forest := by
  refine SamePlaces.forest ⟨same.has, fun id => ?_, same.roots⟩ forest
  exact (congrArg (fun n => n.core.withoutRefs) (same.outline id) :)

theorem selfAndAncestors (id : NameId) : new.selfAndAncestors id = old.selfAndAncestors id := by
  unfold Namespace.selfAndAncestors
  rw [same.parent]
  cases (old.name id).parent with
  | none => rfl
  | some p =>
    dsimp only
    split
    next smaller => rw [selfAndAncestors p]
    next => rfl
termination_by id.index

theorem child? (id : NameId) (base : String) : new.child? id base = old.child? id base :=
  congrArg (findByBase base) (same.children id)

theorem root? (base : String) : new.root? base = old.root? base :=
  congrArg (findByBase base) same.roots

theorem descend? (id : NameId) (bases : List String) :
    new.descend? id bases = old.descend? id bases := by
  induction bases generalizing id with
  | nil => rfl
  | cons base bases ih =>
    rw [Namespace.descend?, Namespace.descend?, same.child?]
    simp only [ih]

theorem hasDefinedChild (id : NameId) (base : String) :
    new.hasDefinedChild id base = old.hasDefinedChild id base := by
  rw [Namespace.hasDefinedChild, Namespace.hasDefinedChild, same.child?]
  simp only [same.isDefined]

theorem followAliases (start : NameId) (n : Nat) (current : NameId) :
    new.followAliases start n current = old.followAliases start n current :=
  followAliases_congr same.aliasOf start n current

/-! ### References -/

theorem ref (i : RefId) : new.ref i = old.ref i := by
  rw [Namespace.ref, Namespace.ref, same.refs]

theorem refsOf (id : NameId) : new.refsOf id = old.refsOf id := by
  rw [Namespace.refsOf, Namespace.refsOf, same.sets, same.uses]

theorem listedBefore : new.listedBefore = old.listedBefore := by
  funext f g
  simp only [Namespace.listedBefore, same.ref]

theorem chunksOf? (ds : List RefId) : new.chunksOf? ds = old.chunksOf? ds := by
  induction ds with
  | nil => rfl
  | cons d ds ih => rw [Namespace.chunksOf?, Namespace.chunksOf?, ih, same.ref]

theorem aliasEquivalents (id : NameId) : new.aliasEquivalents id = old.aliasEquivalents id := by
  have across : ∀ below ancestors, new.acrossAliases id below ancestors =
      old.acrossAliases id below ancestors := by
    intro below ancestors
    induction ancestors generalizing below with
    | nil => rfl
    | cons a ancestors ih =>
      simp only [acrossAliases, acrossAlias?, resolveAlias, same.size, same.followAliases,
        same.aliasOf, same.descend?, same.baseName, ih]
  rw [Namespace.aliasEquivalents, Namespace.aliasEquivalents, same.selfAndAncestors, across]

theorem definingSets (id : NameId) (r : Ref) : new.definingSets id r = old.definingSets id r := by
  rw [Namespace.definingSets, Namespace.definingSets]
  simp only [setsOf, same.aliasEquivalents, same.selfAndAncestors, same.sets, same.isDefined,
    same.ref]

theorem strictFinding? (graph : ChunkGraph) (id : NameId) (r : Ref) :
    new.strictFinding? graph id r = old.strictFinding? graph id r := by
  rw [Namespace.strictFinding?, Namespace.strictFinding?]
  simp only [strictDefiner?, same.definingSets, same.chunksOf?, same.fullName]

/-! ### Checked names -/

theorem isDeclaredRoot (root : NameId) : new.isDeclaredRoot root = old.isDeclaredRoot root := by
  rw [Namespace.isDeclaredRoot, Namespace.isDeclaredRoot, same.sets]
  simp only [same.ref]

/-- The trees below the roots have the same names in the same order. -/
theorem definedness_names (forest : old.Forest) :
    new.definedness.map (·.1) = old.definedness.map (·.1) := by
  have newForest := same.forest forest
  have below : ∀ q d e, (new.definednessBelow q d).map (·.1) =
      (old.definednessBelow q e).map (·.1) := by
    intro q
    induction q using forest.inductionDown with
    | step q ih =>
      intro d e
      have children : new.children q = old.children q := congrArg (List.map _) (same.children q)
      rw [newForest.definednessBelow_eq, forest.definednessBelow_eq, children, List.map_flatMap,
        List.map_flatMap]
      refine List.flatMap_congr fun c member => ?_
      rw [List.map_cons, List.map_cons, ih c member]
  have roots : new.rootOrder = old.rootOrder := congrArg (List.map _) same.roots
  rw [definedness, definedness, roots, List.map_flatMap, List.map_flatMap]
  refine List.flatMap_congr fun root _ => ?_
  rw [same.isDeclaredRoot]
  split
  · exact below root true true
  · rfl

/-- The violations of dependencies are the same, in the same order. -/
theorem filter_strict_findings (forest : old.Forest) (tallied : old.Tallied) (graph : ChunkGraph) :
    (new.findings graph).filter (·.problem.kind = .strictDependency) =
      (old.findings graph).filter (·.problem.kind = .strictDependency) := by
  refine filter_findings_congr forest tallied same.listedBefore ?_
  simp only [filter_strict_findingsByName, same.definedness_names forest, same.refsOf, same.ref,
    same.strictFinding?]

/-- Where every name stays defined, no reference to an undefined name is added. -/
theorem reports_fewer (forest : old.Forest)
    (keeps : ∀ id, old.isDefinedProperty id = true → new.isDefinedProperty id = true)
    {graph : ChunkGraph} {i : RefId} (reported : new.ReportsUndefined graph i) :
    old.ReportsUndefined graph i := by
  obtain ⟨id, visited, j, member, rest⟩ := (reportsUndefined_iff i).mp reported
  obtain ⟨has, below, declared, undefined⟩ :=
    ((same.forest forest).mem_definedness_iff id false).mp visited
  obtain ⟨a, passed, fails⟩ := (isDefinedPath_eq_false_iff id).mp undefined.symm
  rw [same.selfAndAncestors] at passed
  have failed : old.isDefinedProperty a = false := by
    refine Bool.eq_false_iff.mpr fun defined => ?_
    rw [keeps a defined] at fails
    cases fails
  refine (reportsUndefined_iff i).mpr ⟨id, (forest.mem_definedness_iff id false).mpr ?_, j,
    same.refsOf id ▸ member, same.ref j ▸ rest⟩
  refine ⟨(same.has id).mp has, same.parent id ▸ below, ?_,
    ((isDefinedPath_eq_false_iff id).mpr ⟨a, passed, failed⟩).symm⟩
  rwa [rootOf, same.selfAndAncestors, same.isDeclaredRoot] at declared

end SameOutline
end Namespace
end NameAudit
