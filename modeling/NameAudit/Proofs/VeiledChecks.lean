import NameAudit.Proofs.FindingOrder
import NameAudit.Proofs.Findings
import NameAudit.Proofs.Veils

/-!
The check behind a veil. It reads names, and of references their kind and the order of evaluation, none
of which a veil hides. Only whether a reference to an undefined name is reported depends on what exempts
it, so the problems of a namespace are those that are found behind a veil, without the suppressed ones
(`findings_space`).
-/
namespace NameAudit.Namespace

variable {ns : Namespace} {v : Veil}

/-- A problem is reported: it is not that a suppressed reference has an undefined name. -/
def reports (ns : Namespace) (f : Finding) : Bool :=
  f.problem ≠ .undefined ∨ (ns.ref f.reference).exemption ≠ .suppressed

/-! ### Names -/

theorem name_space (id : NameId) : (v.space ns).name id = ns.name id := rfl

theorem selfAndAncestors_space (id : NameId) :
    (v.space ns).selfAndAncestors id = ns.selfAndAncestors id := by
  rw [selfAndAncestors, selfAndAncestors, name_space]
  cases (ns.name id).parent with
  | none => rfl
  | some p =>
    dsimp only
    split
    next smaller => rw [selfAndAncestors_space p]
    next => rfl
termination_by id.index

theorem isDefinedProperty_space (id : NameId) :
    (v.space ns).isDefinedProperty id = ns.isDefinedProperty id := by
  have aliased : ∀ p, (v.space ns).isAliased p = ns.isAliased p := fun p => by
    rw [isAliased, selfAndAncestors_space]
    rfl
  have implied : ∀ p base, (v.space ns).isImpliedMember p base = ns.isImpliedMember p base :=
    fun p base => by
      rw [isImpliedMember, aliased]
      rfl
  rw [isDefinedProperty, isDefinedProperty]
  simp only [implied]
  rfl

theorem isDefinedPath_space (id : NameId) : (v.space ns).isDefinedPath id = ns.isDefinedPath id := by
  rw [isDefinedPath, isDefinedPath, selfAndAncestors_space]
  exact congrArg (List.all _) (funext isDefinedProperty_space)

theorem firstUndefined_space (id : NameId) :
    (v.space ns).firstUndefined id = ns.firstUndefined id := by
  rw [firstUndefined, firstUndefined, name_space]
  cases (ns.name id).parent with
  | none => rfl
  | some p =>
    dsimp only
    rw [isDefinedPath_space]
    split
    · rfl
    · split
      next smaller => rw [firstUndefined_space p]
      next => rfl
termination_by id.index

theorem definednessBelow_space (parent : NameId) (isDefined : Bool) :
    (v.space ns).definednessBelow parent isDefined = ns.definednessBelow parent isDefined := by
  rw [definednessBelow, definednessBelow]
  show ((ns.children parent).flatMap fun c => _) = _
  refine List.flatMap_congr fun c _ => ?_
  rw [isDefinedProperty_space]
  show (if parent.index < c.index ∧ c.index < ns.names.size then
    (c, isDefined && ns.isDefinedProperty c) ::
      (v.space ns).definednessBelow c (isDefined && ns.isDefinedProperty c) else []) = _
  split
  next inside => rw [definednessBelow_space c]
  next => rfl
termination_by ns.names.size - parent.index

theorem definedness_space : (v.space ns).definedness = ns.definedness := by
  have declared : ∀ root, (v.space ns).isDeclaredRoot root = ns.isDeclaredRoot root := fun root => by
    rw [isDeclaredRoot, isDeclaredRoot, name_space]
    cases (ns.name root).sets.head? with
    | none => rfl
    | some first =>
      show (((v.space ns).ref first).position.slot != Slot.externs) = _
      rw [v.ref_space]
      rfl
  show (ns.rootOrder.flatMap fun root => _) = _
  refine List.flatMap_congr fun root _ => ?_
  rw [declared, definednessBelow_space]

theorem followAliases_space (start : NameId) (n : Nat) (current : NameId) :
    (v.space ns).followAliases start n current = ns.followAliases start n current :=
  followAliases_congr (fun a => congrArg Name.aliasOf (name_space a)) start n current

theorem descend?_space (id : NameId) (bases : List String) :
    (v.space ns).descend? id bases = ns.descend? id bases := by
  induction bases generalizing id with
  | nil => rfl
  | cons base bases ih =>
    rw [descend?, descend?]
    simp only [ih]
    rfl

theorem aliasEquivalents_space (id : NameId) :
    (v.space ns).aliasEquivalents id = ns.aliasEquivalents id := by
  have across : ∀ below ancestors, (v.space ns).acrossAliases id below ancestors =
      ns.acrossAliases id below ancestors := by
    intro below ancestors
    induction ancestors generalizing below with
    | nil => rfl
    | cons a ancestors ih =>
      rw [acrossAliases, acrossAliases, acrossAlias?, resolveAlias, followAliases_space,
        descend?_space]
      exact congrArg _ (ih _)
  rw [aliasEquivalents, aliasEquivalents, selfAndAncestors_space, across]

/-! ### References -/

theorem definingSets_space (id : NameId) (r : Ref) :
    (v.space ns).definingSets id (v.ref r) = ns.definingSets id r := by
  rw [definingSets, definingSets, aliasEquivalents_space, selfAndAncestors_space]
  simp only [v.ref_space]
  rfl

theorem chunksOf?_space (ds : List RefId) : (v.space ns).chunksOf? ds = ns.chunksOf? ds := by
  induction ds with
  | nil => rfl
  | cons d ds ih =>
    rw [chunksOf?, chunksOf?, ih, v.ref_space]
    rfl

theorem orderFinding?_space (graph : ChunkGraph) (id : NameId) (isDefined : Bool) (r : Ref) :
    (v.space ns).orderFinding? graph id isDefined (v.ref r) =
      ns.orderFinding? graph id isDefined r := by
  have conditional : (v.ref r).exemption = .conditional ↔ r.exemption = .conditional := by
    show v.exemption r.exemption = _ ↔ _
    unfold Veil.exemption
    cases v.suppressions <;> cases r.exemption <;> simp
  have strict : (v.space ns).strictFinding? graph id (v.ref r) = ns.strictFinding? graph id r := by
    rw [strictFinding?, strictFinding?]
    simp only [strictDefiner?, conditional, definingSets_space, chunksOf?_space]
    rfl
  have late : (v.space ns).lateFinding? id (v.ref r) = ns.lateFinding? id r := by
    rw [lateFinding?, lateFinding?]
    simp only [v.ref_space]
    rfl
  rw [orderFinding?, orderFinding?, strict, late]
  rfl

/-- What is found at a name is what is found behind a veil, as far as it is reported. -/
theorem findingsAt_space (graph : ChunkGraph) (id : NameId) (isDefined : Bool) {i : RefId}
    (number : (ns.ref i).id = i) :
    ns.findingsAt graph id isDefined (ns.ref i) =
      ((v.space ns).findingsAt graph id isDefined (v.ref (ns.ref i))).filter ns.reports := by
  have others : (ns.orderFinding? graph id isDefined (ns.ref i)).toList.filter ns.reports =
      (ns.orderFinding? graph id isDefined (ns.ref i)).toList := by
    rw [List.filter_eq_self]
    intro f member
    exact decide_eq_true (.inl (orderFinding?_problem (Option.mem_toList.mp member)))
  have undefined : (v.space ns).undefinedFinding id (v.ref (ns.ref i)) =
      ns.undefinedFinding id (ns.ref i) := by
    rw [undefinedFinding, firstUndefined_space]
    rfl
  have reported : ns.reports (ns.undefinedFinding id (ns.ref i)) =
      decide ((ns.ref i).exemption ≠ .suppressed) := by
    simp [reports, undefinedFinding, number]
  rw [findingsAt, findingsAt, List.filter_append, orderFinding?_space, others, undefined]
  congr 1
  show _ = List.filter _ (if (!isDefined && !(ns.ref i).isStub &&
    v.exemption (ns.ref i).exemption == .none) = true then _ else [])
  unfold Veil.exemption
  cases isDefined <;> cases (ns.ref i).isStub <;> cases exemption : (ns.ref i).exemption <;>
    cases v.suppressions <;> simp [reported, exemption]

theorem findingsByName_space (tallied : ns.Tallied) (graph : ChunkGraph) :
    ns.findingsByName graph = ((v.space ns).findingsByName graph).filter ns.reports := by
  rw [findingsByName, findingsByName, definedness_space, List.filter_flatMap]
  refine List.flatMap_congr fun visited _ => ?_
  obtain ⟨id, isDefined⟩ := visited
  rw [List.filter_flatMap]
  refine List.flatMap_congr fun i listed => ?_
  rw [v.ref_space]
  exact findingsAt_space graph id isDefined
    (tallied.id_eq i (((tallied.lists_refsOf id).2 i).mp listed).1)

/-- The problems of a namespace are those that are found behind a veil, as far as they are reported. -/
theorem findings_space (forest : ns.Forest) (tallied : ns.Tallied) (graph : ChunkGraph) :
    ns.findings graph = ((v.space ns).findings graph).filter ns.reports := by
  have same : (v.space ns).listedBefore = ns.listedBefore := by
    funext f g
    rw [listedBefore, listedBefore, v.ref_space, v.ref_space]
    rfl
  have perm : (ns.findings graph).Perm (((v.space ns).findings graph).filter ns.reports) := by
    refine (List.mergeSort_perm _ _).trans ?_
    rw [findingsByName_space tallied graph]
    exact ((List.mergeSort_perm _ _).filter _).symm
  have sorted : (((v.space ns).findings graph).filter ns.reports).Pairwise fun f g =>
      ns.listedBefore f g = true := by
    have behind := ((v.space ns).findings_sorted graph).filter ns.reports
    rwa [same] at behind
  exact eq_of_perm_findings forest tallied (List.Sublist.refl _) perm sorted

end NameAudit.Namespace
