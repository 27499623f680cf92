import NameAudit.Proofs.Build
import NameAudit.Proofs.Definedness

/-!
The problems of one reference. The problems of all names are listed name after name and reference
after reference. No name is visited twice and no name lists a reference twice, so a reference is
looked at once if its name is checked (`IsChecked.findingsOn_eq`), and never otherwise. What is found
there has at most one problem of each kind, and only some kinds go together (`kindsTogether`).
-/
namespace NameAudit.Namespace

/-- A reference is to a member of a root that the program, not its environment, declares first. -/
structure IsChecked (ns : Namespace) (i : RefId) : Prop where
  has : ns.HasRef i
  below : (ns.name (ns.ref i).name).parent ≠ none
  /-- The first set of the root is not part of the environment. -/
  declared : ∃ first, (ns.name (ns.rootOf (ns.ref i).name)).sets.head? = some first ∧
    (ns.ref first).position.slot ≠ .externs

/-- The problems of one reference. -/
def findingsOn (ns : Namespace) (graph : ChunkGraph) (i : RefId) : List Finding :=
  (ns.findings graph).filter fun f => f.reference = i

/-- A problem is of a kind, with a reference. -/
def isKindAt (i : RefId) (kind : ProblemKind) (f : Finding) : Bool :=
  f.reference = i ∧ f.problem.kind = kind

/-- The kinds of problem that one reference can have together, in the order in which they are
    listed. -/
def kindsTogether : List (List ProblemKind) :=
  [[], [.undefinedName], [.definedLate], [.strictDependency], [.undefinedName, .strictDependency]]

/-- A list of which only one element contributes, once at most. -/
theorem flatMap_eq_of_single {α β : Type} [BEq α] [LawfulBEq α] {l : List α} {f : α → List β} (a : α)
    (nodup : l.Nodup) (others : ∀ x ∈ l, x ≠ a → f x = []) :
    l.flatMap f = if a ∈ l then f a else [] := by
  induction l with
  | nil => rfl
  | cons x l ih =>
    obtain ⟨absent, rest⟩ := List.nodup_cons.mp nodup
    have later := ih rest fun y member => others y (List.mem_cons_of_mem x member)
    rw [List.flatMap_cons, later]
    by_cases same : x = a
    · subst same
      rw [if_neg absent, if_pos List.mem_cons_self, List.append_nil]
    · rw [others x List.mem_cons_self same, List.nil_append]
      simp only [List.mem_cons, Ne.symm same, false_or]

section
variable {ns : Namespace} {graph : ChunkGraph} {id : NameId} {r : Ref} {f : Finding}

/-! ### What is found at a name -/

theorem strictFinding?_kind (found : ns.strictFinding? graph id r = some f) :
    f.reference = r.id ∧ f.problem.kind = .strictDependency := by
  unfold strictFinding? at found
  split at found
  next => cases found
  next user _ =>
    obtain ⟨definer, _, rfl⟩ := Option.map_eq_some_iff.mp found
    exact ⟨rfl, rfl⟩

theorem lateFinding?_kind (found : ns.lateFinding? id r = some f) :
    f.reference = r.id ∧ f.problem.kind = .definedLate := by
  unfold lateFinding? at found
  split at found
  next => cases found
  next owner _ =>
    split at found
    next => cases found
    next declaration _ =>
      split at found
      next => cases found
      next =>
        obtain rfl := Option.some_inj.mp found
        exact ⟨rfl, rfl⟩

/-- The problem of an undefined name comes first, and is of that kind. -/
theorem filter_undefinedFinding (found : Prop) [Decidable found] {kind : ProblemKind}
    (other : kind ≠ .undefinedName) :
    (if found then [ns.undefinedFinding id r] else []).filter (·.problem.kind = kind) = [] := by
  have differs : (ns.undefinedFinding id r).problem.kind ≠ kind := fun same => other same.symm
  by_cases here : found
  · simp [here, differs]
  · simp [here]

theorem filter_strict_findingsAt (graph : ChunkGraph) (id : NameId) (isDefined : Bool) (r : Ref) :
    (ns.findingsAt graph id isDefined r).filter (·.problem.kind = .strictDependency) =
      (ns.strictFinding? graph id r).toList := by
  rw [findingsAt, List.filter_append, filter_undefinedFinding _ (by decide), List.nil_append,
    orderFinding?]
  cases strict : ns.strictFinding? graph id r with
  | some f => simp [(strictFinding?_kind strict).2]
  | none =>
    by_cases mayBeLate : ((isDefined || r.isStub) && r.isGlobal) = true
    · cases late : ns.lateFinding? id r with
      | some f => simp [mayBeLate, (lateFinding?_kind late).2]
      | none => simp [mayBeLate]
    · simp [mayBeLate]

theorem filter_late_findingsAt (graph : ChunkGraph) (id : NameId) (isDefined : Bool) (r : Ref) :
    (ns.findingsAt graph id isDefined r).filter (·.problem.kind = .definedLate) =
      if ns.strictFinding? graph id r = none ∧ (isDefined = true ∨ r.isStub = true) ∧
          r.isGlobal = true then
        (ns.lateFinding? id r).toList
      else [] := by
  rw [findingsAt, List.filter_append, filter_undefinedFinding _ (by decide), List.nil_append,
    orderFinding?]
  cases strict : ns.strictFinding? graph id r with
  | some f => simp [(strictFinding?_kind strict).2]
  | none =>
    by_cases mayBeLate : (isDefined = true ∨ r.isStub = true) ∧ r.isGlobal = true
    · cases late : ns.lateFinding? id r with
      | some f => simp [mayBeLate, (lateFinding?_kind late).2]
      | none => simp
    · have off : ((isDefined || r.isStub) && r.isGlobal) = false := by simpa using mayBeLate
      simp only [off, Bool.false_eq_true, if_false]
      rw [if_neg fun together => mayBeLate together.2]
      rfl

/-- What is undefined is not late, and what violates a dependency is not late either. -/
theorem kinds_findingsAt (ns : Namespace) (graph : ChunkGraph) (id : NameId) (isDefined : Bool)
    (r : Ref) :
    (ns.findingsAt graph id isDefined r).map (·.problem.kind) ∈ kindsTogether := by
  have undefined : (ns.undefinedFinding id r).problem.kind = .undefinedName := rfl
  rw [findingsAt, orderFinding?]
  cases strict : ns.strictFinding? graph id r with
  | some f =>
    have kind := (strictFinding?_kind strict).2
    by_cases reported : (!isDefined && !r.isStub && r.exemption == .none) = true
    · simp [reported, kind, undefined, kindsTogether]
    · simp [reported, kind, kindsTogether]
  | none =>
    by_cases mayBeLate : ((isDefined || r.isStub) && r.isGlobal) = true
    · have notReported : ¬ (!isDefined && !r.isStub && r.exemption == .none) = true := by
        cases isDefined <;> cases stub : r.isStub <;> simp_all
      cases late : ns.lateFinding? id r with
      | some f => simp [notReported, mayBeLate, (lateFinding?_kind late).2, kindsTogether]
      | none => simp [notReported, mayBeLate, kindsTogether]
    · by_cases reported : (!isDefined && !r.isStub && r.exemption == .none) = true
      · simp [reported, mayBeLate, undefined, kindsTogether]
      · simp [reported, mayBeLate, kindsTogether]

theorem reference_of_mem_findingsAt {isDefined : Bool}
    (member : f ∈ ns.findingsAt graph id isDefined r) : f.reference = r.id := by
  rw [findingsAt, List.mem_append] at member
  rcases member with undefined | order
  · split at undefined
    · rw [List.mem_singleton.mp undefined]
      rfl
    · cases undefined
  · have found := Option.mem_toList.mp order
    unfold orderFinding? at found
    split at found
    next g strict =>
      obtain rfl := Option.some_inj.mp found
      exact (strictFinding?_kind strict).1
    next =>
      split at found
      · exact (lateFinding?_kind found).1
      · cases found

/-! ### What is found of all names -/

/-- Each reference is looked at once at most, where its name is visited. -/
theorem filter_findingsByName (forest : ns.Forest) (tallied : ns.Tallied) (graph : ChunkGraph)
    (i : RefId) :
    (ns.findingsByName graph).filter (fun f => f.reference = i) =
      let id := (ns.ref i).name
      if (id, ns.isDefinedPath id) ∈ ns.definedness then
        if i ∈ ns.refsOf id then ns.findingsAt graph id (ns.isDefinedPath id) (ns.ref i) else []
      else [] := by
  -- All problems of a reference are found where its name lists it.
  have perRef : ∀ n d, ∀ r ∈ ns.refsOf n, (ns.findingsAt graph n d (ns.ref r)).filter
      (fun f => f.reference = i) = if r = i then ns.findingsAt graph n d (ns.ref i) else [] := by
    intro n d r member
    have number : (ns.ref r).id = r := tallied.id_eq r (((tallied.lists_refsOf n).2 r).mp member).1
    by_cases same : r = i
    · subst same
      rw [if_pos rfl, List.filter_eq_self]
      intro f found
      exact decide_eq_true ((reference_of_mem_findingsAt found).trans number)
    · rw [if_neg same, List.filter_eq_nil_iff]
      intro f found
      have reference := (reference_of_mem_findingsAt found).trans number
      simpa [reference] using same
  have perName : ∀ n d, ((ns.refsOf n).flatMap fun r => (ns.findingsAt graph n d (ns.ref r)).filter
      (fun f => f.reference = i)) = if i ∈ ns.refsOf n then
        ns.findingsAt graph n d (ns.ref i) else [] := by
    intro n d
    rw [List.flatMap_congr (perRef n d),
      flatMap_eq_of_single i (tallied.lists_refsOf n).nodup fun r _ other => if_neg other]
    simp
  rw [findingsByName, List.filter_flatMap]
  simp only [List.filter_flatMap, perName]
  refine flatMap_eq_of_single _ forest.definedness_nodup fun ⟨n, d⟩ member different => ?_
  refine if_neg fun listed => different ?_
  have same := (((tallied.lists_refsOf n).2 i).mp listed).2
  rw [((forest.mem_definedness_iff n d).mp member).2.2.2, same]

theorem isDeclaredRoot_iff (root : NameId) : ns.isDeclaredRoot root = true ↔
    ∃ first, (ns.name root).sets.head? = some first ∧ (ns.ref first).position.slot ≠ .externs := by
  unfold isDeclaredRoot
  split
  next none => simp [none]
  next first found => simp [found]

theorem isChecked_iff (forest : ns.Forest) (tallied : ns.Tallied) (i : RefId) :
    ns.IsChecked i ↔
      ((ns.ref i).name, ns.isDefinedPath (ns.ref i).name) ∈ ns.definedness ∧
        i ∈ ns.refsOf (ns.ref i).name := by
  rw [forest.mem_definedness_iff, isDeclaredRoot_iff, (tallied.lists_refsOf _).2]
  constructor
  · rintro ⟨has, below, declared⟩
    exact ⟨⟨tallied.has_name i has, below, declared, rfl⟩, has, rfl⟩
  · rintro ⟨⟨_, below, declared, _⟩, has, _⟩
    exact ⟨has, below, declared⟩

theorem findingsOn_perm (ns : Namespace) (graph : ChunkGraph) (i : RefId) :
    (ns.findingsOn graph i).Perm ((ns.findingsByName graph).filter fun f => f.reference = i) :=
  (List.mergeSort_perm _ _).filter _

theorem filter_isKindAt (ns : Namespace) (graph : ChunkGraph) (i : RefId) (kind : ProblemKind) :
    (ns.findings graph).filter (isKindAt i kind) =
      (ns.findingsOn graph i).filter (·.problem.kind = kind) := by
  rw [findingsOn, List.filter_filter]
  refine List.filter_congr fun f _ => ?_
  simp [isKindAt, Bool.and_comm]

theorem mem_filter_isKindAt {kind : ProblemKind} (member : f ∈ ns.findings graph)
    (ofKind : f.problem.kind = kind) :
    f ∈ (ns.findings graph).filter (isKindAt f.reference kind) :=
  List.mem_filter.mpr ⟨member, decide_eq_true ⟨rfl, ofKind⟩⟩

/-! ### The order of the list -/

theorem listedBefore_iff (f g : Finding) : ns.listedBefore f g = true ↔
    (ns.ref f.reference).position.order < (ns.ref g.reference).position.order ∨
      (ns.ref f.reference).position.order = (ns.ref g.reference).position.order ∧
        f.problem.kind.rank ≤ g.problem.kind.rank := by
  simp [listedBefore]

theorem findings_sorted (ns : Namespace) (graph : ChunkGraph) :
    (ns.findings graph).Pairwise fun f g => ns.listedBefore f g = true := by
  refine List.pairwise_mergeSort (fun f g h first second => ?_) (fun f g => ?_) _
  · rw [listedBefore_iff] at *
    omega
  · rw [Bool.or_eq_true, listedBefore_iff, listedBefore_iff]
    omega

/-- What is found at a name has at most one problem of each kind, in the order of the kinds. -/
theorem findingsAt_increasing (ns : Namespace) (graph : ChunkGraph) (id : NameId) (isDefined : Bool)
    (r : Ref) :
    (ns.findingsAt graph id isDefined r).Pairwise fun f g =>
      f.problem.kind.rank < g.problem.kind.rank := by
  have increasing : ∀ kinds ∈ kindsTogether, kinds.Pairwise (·.rank < ·.rank) := by decide
  have kinds := increasing _ (ns.kinds_findingsAt graph id isDefined r)
  rwa [List.pairwise_map] at kinds

/-- The problems of a checked reference are those that are found at its name. -/
theorem IsChecked.findingsOn_eq {i : RefId} (checked : ns.IsChecked i) (forest : ns.Forest)
    (tallied : ns.Tallied) (graph : ChunkGraph) :
    ns.findingsOn graph i =
      ns.findingsAt graph (ns.ref i).name (ns.isDefinedPath (ns.ref i).name) (ns.ref i) := by
  obtain ⟨visited, listed⟩ := (isChecked_iff forest tallied i).mp checked
  have same := ns.findingsOn_perm graph i
  rw [filter_findingsByName forest tallied, if_pos visited, if_pos listed] at same
  have increasing := ns.findingsAt_increasing graph (ns.ref i).name
    (ns.isDefinedPath (ns.ref i).name) (ns.ref i)
  -- The list of all problems is sorted by kind as far as it is about this reference.
  have sorted : (ns.findingsOn graph i).Pairwise fun f g =>
      f.problem.kind.rank ≤ g.problem.kind.rank := by
    refine ((ns.findings_sorted graph).filter _).imp_of_mem fun {f g} memberF memberG before => ?_
    have here : f.reference = g.reference := by
      have ofF := of_decide_eq_true (List.mem_filter.mp memberF).2
      have ofG := of_decide_eq_true (List.mem_filter.mp memberG).2
      exact ofF.trans ofG.symm
    rw [listedBefore_iff, here] at before
    omega
  have distinct := List.pairwise_map.mpr (increasing.imp Nat.ne_of_lt)
  refine same.eq_of_pairwise (fun f g memberF memberG before after => ?_) sorted
    (increasing.imp Nat.le_of_lt)
  exact List.inj_on_of_nodup_map distinct (same.mem_iff.mp memberF) memberG
    (Nat.le_antisymm before after)

theorem findingsOn_of_not_checked {i : RefId} (not : ¬ ns.IsChecked i) (forest : ns.Forest)
    (tallied : ns.Tallied) (graph : ChunkGraph) : ns.findingsOn graph i = [] := by
  have none : (ns.findingsByName graph).filter (fun f => f.reference = i) = [] := by
    rw [filter_findingsByName forest tallied]
    dsimp only
    split
    next visited =>
      split
      next listed => exact absurd ((isChecked_iff forest tallied i).mpr ⟨visited, listed⟩) not
      next => rfl
    next => rfl
  exact List.Perm.eq_nil (none ▸ ns.findingsOn_perm graph i)

theorem IsChecked.filter_strict {i : RefId} (checked : ns.IsChecked i) (forest : ns.Forest)
    (tallied : ns.Tallied) (graph : ChunkGraph) :
    (ns.findings graph).filter (isKindAt i .strictDependency) =
      (ns.strictFinding? graph (ns.ref i).name (ns.ref i)).toList := by
  rw [filter_isKindAt, checked.findingsOn_eq forest tallied, filter_strict_findingsAt]

theorem IsChecked.filter_late {i : RefId} (checked : ns.IsChecked i) (forest : ns.Forest)
    (tallied : ns.Tallied) (graph : ChunkGraph) :
    (ns.findings graph).filter (isKindAt i .definedLate) =
      if ns.strictFinding? graph (ns.ref i).name (ns.ref i) = none ∧
          (ns.isDefinedPath (ns.ref i).name = true ∨ (ns.ref i).isStub = true) ∧
          (ns.ref i).isGlobal = true then
        (ns.lateFinding? (ns.ref i).name (ns.ref i)).toList
      else [] := by
  rw [filter_isKindAt, checked.findingsOn_eq forest tallied, filter_late_findingsAt]

theorem IsChecked.strictFinding?_eq_none_iff {i : RefId} (checked : ns.IsChecked i)
    (forest : ns.Forest) (tallied : ns.Tallied) (graph : ChunkGraph) :
    ns.strictFinding? graph (ns.ref i).name (ns.ref i) = none ↔
      ∀ f ∈ ns.findings graph, f.reference = i → f.problem.kind ≠ .strictDependency := by
  rw [← Option.toList_eq_nil_iff, ← checked.filter_strict forest tallied, List.filter_eq_nil_iff]
  simp [isKindAt]

/-- Only checked references have problems. -/
theorem isChecked_of_mem_findings (forest : ns.Forest) (tallied : ns.Tallied)
    (member : f ∈ ns.findings graph) : ns.IsChecked f.reference := by
  by_contra not
  have here : f ∈ ns.findingsOn graph f.reference :=
    List.mem_filter.mpr ⟨member, decide_eq_true rfl⟩
  rw [findingsOn_of_not_checked not forest tallied] at here
  cases here

end
end NameAudit.Namespace
