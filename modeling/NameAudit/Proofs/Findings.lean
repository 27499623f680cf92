import NameAudit.Proofs.CheckedReferences

/-!
Which references are reported as undefined: those that are checked, lead through an undefined member
and are not exempt. Each of them is reported once, under the name that is nearest to the root.
-/
namespace NameAudit.Namespace

/-- A reference leads through an undefined member of a root that the program declares, and nothing
    exempts it. -/
structure IsReportable (ns : Namespace) (i : RefId) : Prop where
  has : ns.HasRef i
  below : (ns.name (ns.ref i).name).parent ≠ none
  /-- The first set of the root is not part of the environment. -/
  declared : ∃ first, (ns.name (ns.rootOf (ns.ref i).name)).sets.head? = some first ∧
    (ns.ref first).position.slot ≠ .externs
  fails : ∃ a ∈ ns.selfAndAncestors (ns.ref i).name, ns.isDefinedProperty a = false
  exemption : (ns.ref i).exemption = .none
  isStub : (ns.ref i).isStub = false

/-- A problem is that a reference has an undefined name. -/
def isUndefinedAt (i : RefId) (f : Finding) : Bool := f.reference = i ∧ f.problem = .undefined

section
variable {ns : Namespace}

theorem orderFinding?_problem {graph : ChunkGraph} {id : NameId} {isDefined : Bool} {r : Ref}
    {f : Finding} (found : ns.orderFinding? graph id isDefined r = some f) :
    f.problem ≠ .undefined := by
  have kind : f.problem.kind ≠ .undefinedName := by
    unfold orderFinding? at found
    split at found
    next g strict =>
      obtain rfl := Option.some_inj.mp found
      simp [(strictFinding?_kind strict).2]
    next =>
      split at found
      · simp [(lateFinding?_kind found).2]
      · cases found
  intro undefined
  exact kind (congrArg Problem.kind undefined)

/-- The problems of undefined names among those of one reference. -/
theorem filter_undefined_findingsAt (graph : ChunkGraph) (id : NameId) (isDefined : Bool) (r : Ref) :
    (ns.findingsAt graph id isDefined r).filter (·.problem = .undefined) =
      if isDefined = false ∧ r.isStub = false ∧ r.exemption = .none then
        [ns.undefinedFinding id r]
      else [] := by
  have others : (ns.orderFinding? graph id isDefined r).toList.filter (·.problem = .undefined) =
      [] := by
    rw [List.filter_eq_nil_iff]
    intro f member
    simp [orderFinding?_problem (Option.mem_toList.mp member)]
  rw [findingsAt, List.filter_append, others, List.append_nil]
  cases isDefined <;> cases r.isStub <;> cases r.exemption <;> simp [undefinedFinding]

theorem filter_isUndefinedAt (ns : Namespace) (graph : ChunkGraph) (i : RefId) :
    (ns.findings graph).filter (isUndefinedAt i) =
      (ns.findingsOn graph i).filter (·.problem = .undefined) := by
  rw [findingsOn, List.filter_filter]
  refine List.filter_congr fun f _ => ?_
  simp [isUndefinedAt, and_comm]

theorem isReportable_iff (i : RefId) : ns.IsReportable i ↔
    ns.IsChecked i ∧ ns.isDefinedPath (ns.ref i).name = false ∧
      (ns.ref i).isStub = false ∧ (ns.ref i).exemption = .none := by
  rw [isDefinedPath_eq_false_iff]
  constructor
  · rintro ⟨has, below, declared, fails, exemption, isStub⟩
    exact ⟨⟨has, below, declared⟩, fails, isStub, exemption⟩
  · rintro ⟨⟨has, below, declared⟩, fails, isStub, exemption⟩
    exact ⟨has, below, declared, fails, exemption, isStub⟩

theorem IsReportable.filter_findings {i : RefId} (reportable : ns.IsReportable i)
    (forest : ns.Forest) (tallied : ns.Tallied) (graph : ChunkGraph) :
    (ns.findings graph).filter (isUndefinedAt i) =
      [ns.undefinedFinding (ns.ref i).name (ns.ref i)] := by
  obtain ⟨checked, reported⟩ := (isReportable_iff i).mp reportable
  rw [filter_isUndefinedAt, checked.findingsOn_eq forest tallied, filter_undefined_findingsAt,
    if_pos reported]

theorem filter_findings_of_not_reportable {i : RefId} (not : ¬ ns.IsReportable i)
    (forest : ns.Forest) (tallied : ns.Tallied) (graph : ChunkGraph) :
    (ns.findings graph).filter (isUndefinedAt i) = [] := by
  rw [filter_isUndefinedAt]
  by_cases checked : ns.IsChecked i
  · rw [checked.findingsOn_eq forest tallied, filter_undefined_findingsAt]
    exact if_neg fun reported => not ((isReportable_iff i).mpr ⟨checked, reported⟩)
  · rw [findingsOn_of_not_checked checked forest tallied, List.filter_nil]

end

/-- A reference is reported as undefined if and only if it is reportable, then once, and under the
    full name of the failing name nearest to the root, which is no root itself. The flag that is
    passed down the trees is what climbing from each name finds. -/
theorem ofProgram_reports_undefined (p : Program) (graph : ChunkGraph) :
    (∀ i, (ofProgram p).IsReportable i → ∃ a,
      (ofProgram p).IsOutermostFailure ((ofProgram p).ref i).name a ∧
        ((ofProgram p).name a).parent ≠ none ∧
        ((ofProgram p).findings graph).filter (isUndefinedAt i) =
          [⟨i, ((ofProgram p).name a).fullName, .undefined⟩]) ∧
    (∀ i, ¬ (ofProgram p).IsReportable i →
      ((ofProgram p).findings graph).filter (isUndefinedAt i) = []) ∧
    ∀ v ∈ (ofProgram p).definedness, v.2 = (ofProgram p).isDefinedPath v.1 := by
  have forest := ofProgram_forest p
  have tallied := ofProgram_tallied p
  refine ⟨fun i reportable => ?_, fun i not => ?_, fun ⟨x, d⟩ visited => ?_⟩
  · have undefined := (isDefinedPath_eq_false_iff _).mpr reportable.fails
    have failure := forest.firstUndefined_spec undefined
    refine ⟨_, failure, failure.parent_ne_none, ?_⟩
    rw [reportable.filter_findings forest tallied, undefinedFinding,
      tallied.id_eq i reportable.has]
  · exact filter_findings_of_not_reportable not forest tallied graph
  · exact ((forest.mem_definedness_iff x d).mp visited).2.2.2

end NameAudit.Namespace
