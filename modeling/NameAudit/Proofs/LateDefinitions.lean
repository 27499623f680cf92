import NameAudit.Proofs.CheckedReferences
import NameAudit.Proofs.WellFormed

/-!
Which references are reported as late: those that are evaluated before anything sets their owner. The
check reads only the first declaration of the owner and the number of its sets in functions; that these
stand for all sets of the owner is `Tallied.declaration_iff`.
-/
namespace NameAudit.Namespace

/-- The name that has to be set before a reference: the name itself where its prototype is meant, and
    the parent otherwise. -/
def IsOwner (ns : Namespace) (i : RefId) (owner : NameId) : Prop :=
  if (ns.ref i).type = .prototypeGet then owner = (ns.ref i).name
  else (ns.name (ns.ref i).name).parent = some owner

/-- The set of a name that is evaluated first. -/
structure IsEarliestSet (ns : Namespace) (d : RefId) (n : NameId) : Prop where
  isSet : ns.IsSetOf d n
  first : ∀ e, ns.IsSetOf e n → (ns.ref d).position.order ≤ (ns.ref e).position.order

/-- All sets of a name stand outside functions and come after a reference. -/
def SetOnlyAfter (ns : Namespace) (i : RefId) (n : NameId) : Prop :=
  ∀ d, ns.IsSetOf d n →
    (ns.ref d).isGlobal = true ∧ (ns.ref i).position.order < (ns.ref d).position.order

/-- A reference outside functions is evaluated before its owner is set, and nothing else is wrong with
    it. -/
structure IsLate (ns : Namespace) (graph : ChunkGraph) (i : RefId) (owner : NameId) : Prop where
  isGlobal : (ns.ref i).isGlobal = true
  defined : (ns.ref i).isStub = true ∨
    ∀ a ∈ ns.selfAndAncestors (ns.ref i).name, ns.isDefinedProperty a = true
  notStrict : ∀ f ∈ ns.findings graph, f.reference = i → f.problem.kind ≠ .strictDependency
  isOwner : ns.IsOwner i owner
  isSet : ∃ d, ns.IsSetOf d owner
  onlyAfter : ns.SetOnlyAfter i owner

section
variable {ns : Namespace} {graph : ChunkGraph} {i : RefId} {owner : NameId}

/-! ### The first declaration of the owner -/

theorem Tallied.localSets_eq_zero_iff (tallied : ns.Tallied) (n : NameId) :
    (ns.name n).localSets = 0 ↔ ∀ d, ns.IsSetOf d n → (ns.ref d).isGlobal = true := by
  have listed := fun d => (ns.lists_refsWhere fun r =>
    r.name = n ∧ r.type = .set ∧ r.isGlobal = false).2 d
  rw [tallied.localSets_eq, List.length_eq_zero_iff, List.eq_nil_iff_forall_not_mem]
  constructor
  · intro none d ⟨has, name, type⟩
    by_contra notGlobal
    have isLocal : (ns.ref d).isGlobal = false := by simpa using notGlobal
    exact none d ((listed d).mpr ⟨has, decide_eq_true ⟨name, type, isLocal⟩⟩)
  · intro allGlobal d member
    obtain ⟨has, holds⟩ := (listed d).mp member
    obtain ⟨name, type, isLocal⟩ := of_decide_eq_true holds
    rw [allGlobal d ⟨has, name, type⟩] at isLocal
    cases isLocal

/-- Where no set stands in a function, the first declaration is the earliest set. -/
theorem Tallied.declaration_iff (tallied : ns.Tallied) {n : NameId}
    (allGlobal : ∀ e, ns.IsSetOf e n → (ns.ref e).isGlobal = true) (d : RefId) :
    (ns.name n).declaration = some d ↔ ns.IsEarliestSet d n := by
  have first := tallied.summarizes.declaration n
  constructor
  · intro declared
    rw [declared] at first
    obtain ⟨⟨has, name, type, _⟩, least⟩ := first
    refine ⟨⟨has, name, type⟩, fun e isSet => ?_⟩
    obtain ⟨hasE, nameE, typeE⟩ := isSet
    rw [tallied.order_eq d has, tallied.order_eq e hasE]
    exact least e hasE ⟨nameE, typeE, allGlobal e ⟨hasE, nameE, typeE⟩⟩
  · intro earliest
    obtain ⟨has, name, type⟩ := earliest.isSet
    cases declared : (ns.name n).declaration with
    | none =>
      rw [declared] at first
      exact absurd ⟨name, type, allGlobal d earliest.isSet⟩ (first d has)
    | some e =>
      rw [declared] at first
      obtain ⟨⟨hasE, nameE, typeE, _⟩, least⟩ := first
      have before := least d has ⟨name, type, allGlobal d earliest.isSet⟩
      have after := earliest.first e ⟨hasE, nameE, typeE⟩
      rw [tallied.order_eq d has, tallied.order_eq e hasE] at after
      exact congrArg some (RefId.ext (Nat.le_antisymm before after))

/-! ### The check of one reference -/

theorem ownerOf?_eq_some_iff (i : RefId) (owner : NameId) :
    ns.ownerOf? (ns.ref i).name (ns.ref i) = some owner ↔ ns.IsOwner i owner := by
  unfold ownerOf? IsOwner
  by_cases through : (ns.ref i).type = .prototypeGet
  · simp [through, eq_comm]
  · simp [through]

theorem Tallied.lateFinding?_eq_some_iff (tallied : ns.Tallied) (has : ns.HasRef i) (f : Finding) :
    ns.lateFinding? (ns.ref i).name (ns.ref i) = some f ↔
      ∃ owner d, ns.IsOwner i owner ∧ ns.IsEarliestSet d owner ∧ ns.SetOnlyAfter i owner ∧
        f = ⟨i, ns.referredName (ns.ref i).name (ns.ref i), .definedLate owner d⟩ := by
  have number := tallied.id_eq i has
  constructor
  · intro found
    unfold lateFinding? at found
    split at found
    next => cases found
    next owner isOwner =>
      split at found
      next => cases found
      next d declared =>
        split at found
        next => cases found
        next late =>
          obtain ⟨noLocal, before⟩ := not_or.mp late
          have allGlobal := (tallied.localSets_eq_zero_iff owner).mp (by omega)
          have earliest := (tallied.declaration_iff allGlobal d).mp declared
          have onlyAfter : ns.SetOnlyAfter i owner := by
            intro e isSet
            have notSooner := earliest.first e isSet
            exact ⟨allGlobal e isSet, by omega⟩
          rw [number] at found
          exact ⟨owner, d, (ownerOf?_eq_some_iff i owner).mp isOwner, earliest, onlyAfter,
            (Option.some_inj.mp found).symm⟩
  · rintro ⟨owner, d, isOwner, earliest, onlyAfter, rfl⟩
    have allGlobal : ∀ e, ns.IsSetOf e owner → (ns.ref e).isGlobal = true :=
      fun e isSet => (onlyAfter e isSet).1
    have noLocal := (tallied.localSets_eq_zero_iff owner).mpr allGlobal
    have before := (onlyAfter d earliest.isSet).2
    rw [lateFinding?, (ownerOf?_eq_some_iff i owner).mpr isOwner]
    simp only [(tallied.declaration_iff allGlobal d).mpr earliest]
    rw [if_neg (by omega), number]

theorem Tallied.exists_earliest (tallied : ns.Tallied) {n : NameId} (isSet : ∃ d, ns.IsSetOf d n)
    (allGlobal : ∀ e, ns.IsSetOf e n → (ns.ref e).isGlobal = true) :
    ∃ d, ns.IsEarliestSet d n := by
  obtain ⟨d, has, name, type⟩ := isSet
  cases declared : (ns.name n).declaration with
  | some e => exact ⟨e, (tallied.declaration_iff allGlobal e).mp declared⟩
  | none =>
    have first := tallied.summarizes.declaration n
    rw [declared] at first
    exact absurd ⟨name, type, allGlobal d ⟨has, name, type⟩⟩ (first d has)

/-- The conditions that are not about the owner, as the check reads them. -/
theorem IsChecked.isLate_iff (checked : ns.IsChecked i) (forest : ns.Forest) (tallied : ns.Tallied)
    (graph : ChunkGraph) (owner : NameId) : ns.IsLate graph i owner ↔
      (ns.strictFinding? graph (ns.ref i).name (ns.ref i) = none ∧
        (ns.isDefinedPath (ns.ref i).name = true ∨ (ns.ref i).isStub = true) ∧
        (ns.ref i).isGlobal = true) ∧
      ns.IsOwner i owner ∧ (∃ d, ns.IsSetOf d owner) ∧ ns.SetOnlyAfter i owner := by
  rw [checked.strictFinding?_eq_none_iff forest tallied, isDefinedPath, List.all_eq_true]
  constructor
  · rintro ⟨isGlobal, defined, notStrict, isOwner, isSet, onlyAfter⟩
    exact ⟨⟨notStrict, defined.symm, isGlobal⟩, isOwner, isSet, onlyAfter⟩
  · rintro ⟨⟨notStrict, defined, isGlobal⟩, isOwner, isSet, onlyAfter⟩
    exact ⟨isGlobal, defined.symm, notStrict, isOwner, isSet, onlyAfter⟩

end

/-- A checked reference is reported as late if and only if it is evaluated before all sets of its
    owner and all of these stand outside functions, then once, and with the earliest of them. -/
theorem ofProgram_reports_late (p : Program) (graph : ChunkGraph) :
    (∀ i, (ofProgram p).IsChecked i → ∀ owner, (ofProgram p).IsLate graph i owner →
      ∃ d, (ofProgram p).IsEarliestSet d owner ∧
        ((ofProgram p).findings graph).filter (isKindAt i .definedLate) =
          [⟨i, (ofProgram p).referredName ((ofProgram p).ref i).name ((ofProgram p).ref i),
            .definedLate owner d⟩]) ∧
    (∀ i, (ofProgram p).IsChecked i → (∀ owner, ¬ (ofProgram p).IsLate graph i owner) →
      ((ofProgram p).findings graph).filter (isKindAt i .definedLate) = []) ∧
    ∀ f ∈ (ofProgram p).findings graph, ∀ owner d, f.problem = .definedLate owner d →
      (ofProgram p).IsOwner f.reference owner ∧ (ofProgram p).IsEarliestSet d owner ∧
        (ofProgram p).SetOnlyAfter f.reference owner := by
  have forest := ofProgram_forest p
  have tallied := ofProgram_tallied p
  refine ⟨fun i checked owner late => ?_, fun i checked never => ?_, fun f member owner d late => ?_⟩
  · obtain ⟨together, isOwner, isSet, onlyAfter⟩ :=
      (checked.isLate_iff forest tallied graph owner).mp late
    obtain ⟨d, earliest⟩ := tallied.exists_earliest isSet fun e isSet => (onlyAfter e isSet).1
    refine ⟨d, earliest, ?_⟩
    rw [checked.filter_late forest tallied, if_pos together,
      (tallied.lateFinding?_eq_some_iff checked.has _).mpr
        ⟨owner, d, isOwner, earliest, onlyAfter, rfl⟩]
    rfl
  · rw [checked.filter_late forest tallied]
    split
    next together =>
      rw [Option.toList_eq_nil_iff, Option.eq_none_iff_forall_ne_some]
      intro f found
      obtain ⟨owner, d, isOwner, earliest, onlyAfter, _⟩ :=
        (tallied.lateFinding?_eq_some_iff checked.has f).mp found
      exact never owner ((checked.isLate_iff forest tallied graph owner).mpr
        ⟨together, isOwner, ⟨d, earliest.isSet⟩, onlyAfter⟩)
    next => rfl
  · have checked := isChecked_of_mem_findings forest tallied member
    have kind : f.problem.kind = .definedLate := congrArg Problem.kind late
    have listed := mem_filter_isKindAt member kind
    rw [checked.filter_late forest tallied] at listed
    split at listed
    next =>
      obtain ⟨_, _, isOwner, earliest, onlyAfter, same⟩ :=
        (tallied.lateFinding?_eq_some_iff checked.has f).mp (Option.mem_toList.mp listed)
      have problem := congrArg Finding.problem same
      rw [late] at problem
      obtain ⟨rfl, rfl⟩ := Problem.definedLate.inj problem
      exact ⟨isOwner, earliest, onlyAfter⟩
    next => cases listed

end NameAudit.Namespace
