import NameAudit.Proofs.Forest

/-!
The names above a name, and how a name is spelled from its root on. In a forest the climb to the root
is never cut short. Creating a path leads to the name that it spells, and what is created later does
not change how a name is spelled.
-/
namespace NameAudit.Namespace

/-- The base names from the root of a name down to the name. -/
def spelling (ns : Namespace) (id : NameId) : List String :=
  ((ns.selfAndAncestors id).map fun a => (ns.name a).baseName).reverse

section
variable {ns : Namespace}

theorem selfAndAncestors_of_root {id : NameId} (root : (ns.name id).parent = none) :
    ns.selfAndAncestors id = [id] := by
  rw [selfAndAncestors, root]

theorem Forest.selfAndAncestors_of_child (forest : ns.Forest) {id p : NameId}
    (below : (ns.name id).parent = some p) :
    ns.selfAndAncestors id = id :: ns.selfAndAncestors p := by
  rw [selfAndAncestors, below]
  simp only [forest.parent_lt id p below, if_true]

theorem self_mem_selfAndAncestors (id : NameId) : id ∈ ns.selfAndAncestors id := by
  rw [selfAndAncestors]
  exact List.mem_cons_self

theorem spelling_of_root {id : NameId} (root : (ns.name id).parent = none) :
    ns.spelling id = [(ns.name id).baseName] := by
  rw [spelling, selfAndAncestors_of_root root]
  rfl

theorem Forest.spelling_of_child (forest : ns.Forest) {id p : NameId}
    (below : (ns.name id).parent = some p) :
    ns.spelling id = ns.spelling p ++ [(ns.name id).baseName] := by
  rw [spelling, forest.selfAndAncestors_of_child below, List.map_cons, List.reverse_cons, spelling]

end

section
variable {old new : Namespace}

theorem Extends.selfAndAncestors (further : Extends old new) (forest : old.Forest) (id : NameId)
    (has : old.Has id) : new.selfAndAncestors id = old.selfAndAncestors id := by
  unfold Namespace.selfAndAncestors
  rw [further.parent id has]
  cases parent : (old.name id).parent with
  | none => rfl
  | some p =>
    have smaller := forest.parent_lt id p parent
    have above := Extends.selfAndAncestors further forest p (forest.has_parent has parent)
    simp only [smaller, if_true, above]
termination_by id.index

theorem Forest.has_of_mem_selfAndAncestors (forest : new.Forest) (id a : NameId) (has : new.Has id)
    (member : a ∈ new.selfAndAncestors id) : new.Has a := by
  cases parent : (new.name id).parent with
  | none =>
    rw [selfAndAncestors_of_root parent] at member
    exact List.mem_singleton.mp member ▸ has
  | some p =>
    have smaller := forest.parent_lt id p parent
    rw [forest.selfAndAncestors_of_child parent] at member
    rcases List.mem_cons.mp member with rfl | above
    · exact has
    · exact Forest.has_of_mem_selfAndAncestors forest p a (forest.has_parent has parent) above
termination_by id.index

theorem Extends.spelling (further : Extends old new) (forest : old.Forest) {id : NameId}
    (has : old.Has id) : new.spelling id = old.spelling id := by
  rw [Namespace.spelling, Namespace.spelling, further.selfAndAncestors forest id has]
  congr 1
  apply List.map_congr_left
  intro a member
  exact further.baseName a (forest.has_of_mem_selfAndAncestors id a has member)

end

/-! ### The way up -/

section
variable {ns : Namespace}

/-- Names are the proper ancestors of a name: its parent, the parent of this one, and so on up to a root. -/
inductive WayUp (ns : Namespace) : NameId → List NameId → Prop
  | root {id : NameId} (none : (ns.name id).parent = none) : WayUp ns id []
  | child {id p : NameId} {above : List NameId} (parent : (ns.name id).parent = some p)
    (further : WayUp ns p above) : WayUp ns id (p :: above)

/-- The names above a name. -/
def ancestors (ns : Namespace) (id : NameId) : List NameId := (ns.selfAndAncestors id).tail

theorem selfAndAncestors_eq (id : NameId) : ns.selfAndAncestors id = id :: ns.ancestors id := by
  rw [ancestors, selfAndAncestors]
  rfl

theorem ancestors_of_root {id : NameId} (root : (ns.name id).parent = none) :
    ns.ancestors id = [] := by
  rw [ancestors, selfAndAncestors_of_root root]
  rfl

theorem Forest.ancestors_of_child (forest : ns.Forest) {id p : NameId}
    (below : (ns.name id).parent = some p) : ns.ancestors id = ns.selfAndAncestors p := by
  rw [ancestors, forest.selfAndAncestors_of_child below]
  rfl

/-- What holds of a name if it holds of its parent holds of every name. -/
theorem Forest.inductionUp (forest : ns.Forest) {P : NameId → Prop}
    (root : ∀ id, (ns.name id).parent = none → P id)
    (child : ∀ id p, (ns.name id).parent = some p → P p → P id) (id : NameId) : P id := by
  cases parent : (ns.name id).parent with
  | none => exact root id parent
  | some p =>
    have smaller := forest.parent_lt id p parent
    exact child id p parent (Forest.inductionUp forest root child p)
termination_by id.index

/-- The ancestors of a name are the way up from it. -/
theorem Forest.wayUp_iff (forest : ns.Forest) {id : NameId} {above : List NameId} :
    ns.WayUp id above ↔ above = ns.ancestors id := by
  constructor
  · intro way
    induction way with
    | root none => exact (ancestors_of_root none).symm
    | child parent _ ih => rw [forest.ancestors_of_child parent, selfAndAncestors_eq, ih]
  · rintro rfl
    induction id using forest.inductionUp with
    | root id none =>
      rw [ancestors_of_root none]
      exact .root none
    | child id p parent ih =>
      rw [forest.ancestors_of_child parent, selfAndAncestors_eq]
      exact .child parent ih

theorem Forest.index_lt_of_mem_ancestors (forest : ns.Forest) {id a : NameId}
    (above : a ∈ ns.ancestors id) : a.index < id.index := by
  induction id using forest.inductionUp generalizing a with
  | root id none =>
    rw [ancestors_of_root none] at above
    cases above
  | child id p below ih =>
    have smaller := forest.parent_lt id p below
    rw [forest.ancestors_of_child below, selfAndAncestors_eq] at above
    rcases List.mem_cons.mp above with rfl | higher
    · exact smaller
    · exact Nat.lt_trans (ih higher) smaller

/-- Of two names on one way up, one is above the other. -/
theorem Forest.mem_or_mem_of_mem (forest : ns.Forest) {id a b : NameId}
    (first : a ∈ ns.selfAndAncestors id) (second : b ∈ ns.selfAndAncestors id) :
    a ∈ ns.selfAndAncestors b ∨ b ∈ ns.selfAndAncestors a := by
  induction id using forest.inductionUp with
  | root id none =>
    rw [selfAndAncestors_of_root none, List.mem_singleton] at first second
    rw [first, second]
    exact .inl (self_mem_selfAndAncestors id)
  | child id p below ih =>
    have up := forest.selfAndAncestors_of_child below
    rw [up] at first second
    rcases List.mem_cons.mp first with rfl | higher
    · rw [up]
      exact .inr second
    · rcases List.mem_cons.mp second with rfl | alsoHigher
      · rw [up]
        exact .inl first
      · exact ih higher alsoHigher

/-- On the way up, what comes later is above what comes before. -/
theorem Forest.selfAndAncestors_sorted (forest : ns.Forest) (id : NameId) :
    (ns.selfAndAncestors id).Pairwise fun a b => b ∈ ns.ancestors a := by
  induction id using forest.inductionUp with
  | root id none =>
    rw [selfAndAncestors_of_root none]
    exact List.pairwise_singleton _ _
  | child id p below ih =>
    rw [forest.selfAndAncestors_of_child below]
    refine List.pairwise_cons.mpr ⟨fun b above => ?_, ih⟩
    rw [forest.ancestors_of_child below]
    exact above

theorem Forest.eq_of_above_each_other (forest : ns.Forest) {a b : NameId}
    (first : a ∈ ns.selfAndAncestors b) (second : b ∈ ns.selfAndAncestors a) : a = b := by
  rw [selfAndAncestors_eq] at first second
  rcases List.mem_cons.mp first with same | above
  · exact same
  · rcases List.mem_cons.mp second with same | alsoAbove
    · exact same.symm
    · have smaller := forest.index_lt_of_mem_ancestors above
      have larger := forest.index_lt_of_mem_ancestors alsoAbove
      omega

/-- The way up passes no two names with one parent, and no two roots. -/
theorem Forest.eq_of_same_parent (forest : ns.Forest) {id a b : NameId}
    (first : a ∈ ns.selfAndAncestors id) (second : b ∈ ns.selfAndAncestors id)
    (same : (ns.name a).parent = (ns.name b).parent) : a = b := by
  have different : ∀ {c d : NameId}, c ∈ ns.ancestors d →
      (ns.name c).parent ≠ (ns.name d).parent := by
    intro c d above equal
    cases parent : (ns.name d).parent with
    | none =>
      rw [ancestors_of_root parent] at above
      cases above
    | some p =>
      have smaller := forest.parent_lt c p (equal.trans parent)
      rw [forest.ancestors_of_child parent, selfAndAncestors_eq] at above
      rcases List.mem_cons.mp above with rfl | higher
      · exact Nat.lt_irrefl _ smaller
      · exact Nat.lt_asymm smaller (forest.index_lt_of_mem_ancestors higher)
  rcases forest.mem_or_mem_of_mem first second with up | up
  · rw [selfAndAncestors_eq] at up
    exact (List.mem_cons.mp up).resolve_right fun above => different above same
  · rw [selfAndAncestors_eq] at up
    exact ((List.mem_cons.mp up).resolve_right fun above => different above same.symm).symm

/-- The way up from a name that is passed is the rest of the way. -/
theorem Forest.ancestors_subset (forest : ns.Forest) {id a b : NameId}
    (passed : a ∈ ns.selfAndAncestors id) (above : b ∈ ns.ancestors a) : b ∈ ns.ancestors id := by
  induction id using forest.inductionUp with
  | root id none =>
    rw [selfAndAncestors_of_root none, List.mem_singleton] at passed
    exact passed ▸ above
  | child id p below ih =>
    rw [forest.selfAndAncestors_of_child below] at passed
    rcases List.mem_cons.mp passed with rfl | higher
    · exact above
    · rw [forest.ancestors_of_child below, selfAndAncestors_eq]
      exact List.mem_cons_of_mem p (ih higher)

theorem Forest.rootOf_of_child (forest : ns.Forest) {id p : NameId}
    (below : (ns.name id).parent = some p) : ns.rootOf id = ns.rootOf p := by
  rw [rootOf, rootOf, forest.selfAndAncestors_of_child below, selfAndAncestors_eq p,
    List.getLast?_cons_cons]
  cases last : (p :: ns.ancestors p).getLast? with
  | none => simp at last
  | some r => rfl

/-- The way up ends in a root. -/
theorem Forest.rootOf_spec (forest : ns.Forest) (id : NameId) :
    ns.rootOf id ∈ ns.selfAndAncestors id ∧ (ns.name (ns.rootOf id)).parent = none := by
  induction id using forest.inductionUp with
  | root id none =>
    rw [rootOf, selfAndAncestors_of_root none]
    exact ⟨List.mem_singleton_self id, none⟩
  | child id p below ih =>
    rw [forest.rootOf_of_child below, forest.selfAndAncestors_of_child below]
    exact ⟨List.mem_cons_of_mem id ih.1, ih.2⟩

theorem Forest.eq_rootOf (forest : ns.Forest) {id r : NameId}
    (passed : r ∈ ns.selfAndAncestors id) (root : (ns.name r).parent = none) :
    r = ns.rootOf id :=
  forest.eq_of_same_parent passed (forest.rootOf_spec id).1
    (root.trans (forest.rootOf_spec id).2.symm)

end

/-! ### Creating a path -/

/-- A name of a namespace with its spelling. -/
structure Spelled (ns : Namespace) (id : NameId) (bases : List String) : Prop where
  has : ns.Has id
  spelling : ns.spelling id = bases

theorem Spelled.extends {old new : Namespace} {id : NameId} {bases : List String}
    (spelled : Spelled old id bases) (forest : old.Forest) (further : Extends old new) :
    Spelled new id bases :=
  ⟨further.has id spelled.has, (further.spelling forest spelled.has).trans spelled.spelling⟩

/-- A spelling ends in the base name of the name. -/
theorem Spelled.baseName {ns : Namespace} {id : NameId} {bases : List String}
    (spelled : Spelled ns id bases) : bases.getLast? = some (ns.name id).baseName := by
  rw [← spelled.spelling, Namespace.spelling, selfAndAncestors, List.getLast?_reverse]
  rfl

/-- A spelling begins with the base name of the root. -/
theorem Spelled.baseName_rootOf {ns : Namespace} {id : NameId} {root : String} {bases : List String}
    (spelled : Spelled ns id (root :: bases)) : (ns.name (ns.rootOf id)).baseName = root := by
  have first : (ns.spelling id).head? = some root := by
    rw [spelled.spelling]
    rfl
  rw [Namespace.spelling, List.head?_reverse, List.getLast?_map] at first
  obtain ⟨r, last, same⟩ := Option.map_eq_some_iff.mp first
  rw [rootOf, last]
  exact same

/-- A name that is spelled by one base name is a root. -/
theorem Spelled.isRoot {ns : Namespace} (forest : ns.Forest) {id : NameId} {base : String}
    (spelled : Spelled ns id [base]) : (ns.name id).parent = none := by
  cases parent : (ns.name id).parent with
  | none => rfl
  | some p =>
    have same := congrArg List.length spelled.spelling
    rw [forest.spelling_of_child parent, Namespace.spelling, selfAndAncestors] at same
    simp at same

/-- No two names are spelled alike. -/
theorem Forest.eq_of_spelled {ns : Namespace} (forest : ns.Forest) {c d : NameId}
    {bases : List String} (first : Spelled ns c bases) (second : Spelled ns d bases) : c = d := by
  induction c using forest.inductionUp generalizing d bases with
  | root c none =>
    obtain rfl := first.spelling
    rw [spelling_of_root none] at second
    have root := second.isRoot forest
    have same := second.spelling
    rw [spelling_of_root root] at same
    exact forest.unique c d first.has second.has (none.trans root.symm)
      (List.singleton_inj.mp same).symm
  | child c p below ih =>
    obtain rfl := first.spelling
    have same := second.spelling
    rw [forest.spelling_of_child below] at same
    cases parent : (ns.name d).parent with
    | none =>
      rw [spelling_of_root parent, Namespace.spelling, selfAndAncestors] at same
      have lengths := congrArg List.length same
      simp at lengths
    | some q =>
      rw [forest.spelling_of_child parent] at same
      obtain ⟨above, last⟩ := List.append_inj' same rfl
      obtain rfl : p = q := ih ⟨forest.has_parent first.has below, rfl⟩
        ⟨forest.has_parent second.has parent, above⟩
      exact forest.unique c d first.has second.has (below.trans parent.symm)
        (List.singleton_inj.mp last).symm

section
variable {ns : Namespace}

theorem Forest.rootOrNew (forest : ns.Forest) (base : String) :
    Grows ns (ns.rootOrNew base).2 ∧ Spelled (ns.rootOrNew base).2 (ns.rootOrNew base).1 [base] := by
  cases found : ns.root? base with
  | some id =>
    obtain ⟨has, root, same⟩ := (forest.root?_eq_some_iff id base).mp found
    simp only [Namespace.rootOrNew, found]
    exact ⟨Grows.refl ns, has, by rw [spelling_of_root root, same]⟩
  | none =>
    have adds := forest.adds_root found
    simp only [Namespace.rootOrNew, found]
    refine ⟨(Step.root base found).grows, (adds.has _).mpr (.inr rfl), ?_⟩
    rw [spelling_of_root] <;> rw [adds.name_new]

theorem Forest.childOrNew (forest : ns.Forest) {parent : NameId} (has : ns.Has parent)
    (base : String) :
    Grows ns (ns.childOrNew parent base).2 ∧
      (ns.childOrNew parent base).2.Has (ns.childOrNew parent base).1 ∧
      ((ns.childOrNew parent base).2.name (ns.childOrNew parent base).1).parent = some parent ∧
      ((ns.childOrNew parent base).2.name (ns.childOrNew parent base).1).baseName = base := by
  cases found : ns.child? parent base with
  | some id =>
    simp only [Namespace.childOrNew, found]
    exact ⟨Grows.refl ns, (forest.child?_eq_some_iff parent id base).mp found⟩
  | none =>
    have adds := forest.adds_child has found
    simp only [Namespace.childOrNew, found]
    refine ⟨(Step.child parent base has found).grows, (adds.has _).mpr (.inr rfl), ?_⟩
    rw [adds.name_new]
    exact ⟨rfl, rfl⟩

theorem Forest.descendOrNew (forest : ns.Forest) {id : NameId} {above : List String}
    (spelled : Spelled ns id above) (bases : List String) :
    Grows ns (ns.descendOrNew id bases).2 ∧
      Spelled (ns.descendOrNew id bases).2 (ns.descendOrNew id bases).1 (above ++ bases) := by
  induction bases generalizing ns id above with
  | nil => exact ⟨Grows.refl ns, by simpa [Namespace.descendOrNew] using spelled⟩
  | cons base bases ih =>
    obtain ⟨grows, has, below, same⟩ := forest.childOrNew spelled.has base
    have later := grows.forest forest
    have child : Spelled (ns.childOrNew id base).2 (ns.childOrNew id base).1 (above ++ [base]) := by
      refine ⟨has, ?_⟩
      rw [later.spelling_of_child below, same, (spelled.extends forest grows.extends).spelling]
    obtain ⟨further, reached⟩ := ih later child
    refine ⟨grows.trans further, ?_⟩
    simpa [Namespace.descendOrNew] using reached

end

end NameAudit.Namespace
