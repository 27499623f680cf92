import NameAudit.Proofs.Ancestors
import Mathlib.Data.List.Nodup

/-!
Whether the names on the way up from a name are all defined is found in two ways: by a flag that is
passed down the trees, and by climbing from the name. Both find the same, the trees reach each name
below a checked root once, and the climb ends at the failing name that is nearest to the root.
-/
namespace NameAudit.Namespace

/-- The failing name on the way up from a name that is nearest to the root. -/
structure IsOutermostFailure (ns : Namespace) (id a : NameId) : Prop where
  passed : a ∈ ns.selfAndAncestors id
  fails : ns.isDefinedProperty a = false
  above : ∀ b ∈ ns.ancestors a, ns.isDefinedProperty b = true

section
variable {ns : Namespace}

/-! ### The climb -/

theorem isDefinedProperty_of_root {id : NameId} (root : (ns.name id).parent = none) :
    ns.isDefinedProperty id = true := by
  rw [isDefinedProperty, root]

theorem isDefinedPath_of_root {id : NameId} (root : (ns.name id).parent = none) :
    ns.isDefinedPath id = true := by
  rw [isDefinedPath, selfAndAncestors_of_root root, List.all_cons, isDefinedProperty_of_root root]
  rfl

theorem Forest.isDefinedPath_of_child (forest : ns.Forest) {id p : NameId}
    (below : (ns.name id).parent = some p) :
    ns.isDefinedPath id = (ns.isDefinedProperty id && ns.isDefinedPath p) := by
  rw [isDefinedPath, forest.selfAndAncestors_of_child below, List.all_cons, isDefinedPath]

theorem isDefinedPath_eq_false_iff (id : NameId) :
    ns.isDefinedPath id = false ↔ ∃ a ∈ ns.selfAndAncestors id, ns.isDefinedProperty a = false := by
  rw [isDefinedPath, List.all_eq_false]
  simp only [Bool.not_eq_true]

/-- A parent has a smaller number, so the climb is never cut short. -/
theorem Forest.firstUndefined_of_child (forest : ns.Forest) {id p : NameId}
    (below : (ns.name id).parent = some p) :
    ns.firstUndefined id = if ns.isDefinedPath p then id else ns.firstUndefined p := by
  rw [firstUndefined, below]
  simp only [forest.parent_lt id p below, if_true]

theorem Forest.firstUndefined_spec (forest : ns.Forest) {id : NameId}
    (undefined : ns.isDefinedPath id = false) :
    ns.IsOutermostFailure id (ns.firstUndefined id) := by
  induction id using forest.inductionUp with
  | root id none =>
    rw [isDefinedPath_of_root none] at undefined
    cases undefined
  | child id p below ih =>
    rw [forest.firstUndefined_of_child below]
    cases path : ns.isDefinedPath p with
    | true =>
      rw [forest.isDefinedPath_of_child below, path, Bool.and_true] at undefined
      refine ⟨self_mem_selfAndAncestors id, undefined, ?_⟩
      rw [if_pos rfl, forest.ancestors_of_child below]
      exact List.all_eq_true.mp path
    | false =>
      obtain ⟨passed, fails, above⟩ := ih path
      rw [if_neg Bool.false_ne_true]
      refine ⟨?_, fails, above⟩
      rw [forest.selfAndAncestors_of_child below]
      exact List.mem_cons_of_mem id passed

theorem IsOutermostFailure.parent_ne_none {id a : NameId} (failure : ns.IsOutermostFailure id a) :
    (ns.name a).parent ≠ none := by
  intro root
  have fails := failure.fails
  rw [isDefinedProperty_of_root root] at fails
  cases fails

/-! ### The descent -/

/-- What holds of a name if it holds of its children holds of every name. -/
theorem Forest.inductionDown (forest : ns.Forest) {P : NameId → Prop}
    (step : ∀ q, (∀ c ∈ ns.children q, P c) → P q) (q : NameId) : P q := by
  refine step q fun c member => ?_
  obtain ⟨has, below⟩ := (forest.mem_children q c).mp member
  have larger := forest.parent_lt c q below
  have inside : c.index < ns.names.size := has
  exact Forest.inductionDown forest step c
termination_by ns.names.size - q.index

/-- A child has a larger number, so the descent is never cut short. -/
theorem Forest.definednessBelow_eq (forest : ns.Forest) (q : NameId) (flag : Bool) :
    ns.definednessBelow q flag = (ns.children q).flatMap fun c =>
      (c, flag && ns.isDefinedProperty c) ::
        ns.definednessBelow c (flag && ns.isDefinedProperty c) := by
  rw [definednessBelow]
  refine List.flatMap_congr fun c member => ?_
  obtain ⟨has, below⟩ := (forest.mem_children q c).mp member
  exact if_pos ⟨forest.parent_lt c q below, has⟩

theorem Forest.mem_definednessBelow (forest : ns.Forest) {q x : NameId} {flag d : Bool} :
    (x, d) ∈ ns.definednessBelow q flag ↔ ∃ c ∈ ns.children q,
      (x = c ∧ d = (flag && ns.isDefinedProperty c)) ∨
        (x, d) ∈ ns.definednessBelow c (flag && ns.isDefinedProperty c) := by
  rw [forest.definednessBelow_eq]
  simp only [List.mem_flatMap, List.mem_cons, Prod.mk.injEq]

theorem Forest.child_visited (forest : ns.Forest) {q c : NameId} (flag : Bool)
    (child : c ∈ ns.children q) :
    (c, flag && ns.isDefinedProperty c) ∈ ns.definednessBelow q flag :=
  forest.mem_definednessBelow.mpr ⟨c, child, .inl ⟨rfl, rfl⟩⟩

/-- The flag that is passed down is what the climb finds. -/
theorem Forest.flag_eq_isDefinedPath (forest : ns.Forest) (q x : NameId) (d : Bool)
    (visited : (x, d) ∈ ns.definednessBelow q (ns.isDefinedPath q)) : d = ns.isDefinedPath x := by
  induction q using forest.inductionDown with
  | step q ih =>
    obtain ⟨c, member, here | deeper⟩ := forest.mem_definednessBelow.mp visited
    all_goals
      obtain ⟨_, below⟩ := (forest.mem_children q c).mp member
      have flag := forest.isDefinedPath_of_child below
      rw [Bool.and_comm] at flag
    · rw [here.1, here.2, flag]
    · rw [← flag] at deeper
      exact ih c member deeper

/-- What is visited below a name has it above. -/
theorem Forest.mem_ancestors_of_visited (forest : ns.Forest) {q x : NameId} {flag d : Bool}
    (visited : (x, d) ∈ ns.definednessBelow q flag) : ns.Has x ∧ q ∈ ns.ancestors x := by
  induction q using forest.inductionDown generalizing flag with
  | step q ih =>
    obtain ⟨c, member, here | deeper⟩ := forest.mem_definednessBelow.mp visited
    all_goals
      obtain ⟨has, below⟩ := (forest.mem_children q c).mp member
      have above : q ∈ ns.ancestors c := by
        rw [forest.ancestors_of_child below]
        exact self_mem_selfAndAncestors q
    · exact here.1 ▸ ⟨has, above⟩
    · obtain ⟨hasX, passed⟩ := ih c member deeper
      refine ⟨hasX, forest.ancestors_subset ?_ above⟩
      rw [selfAndAncestors_eq]
      exact List.mem_cons_of_mem x passed

/-- The children of what is visited are visited. -/
theorem Forest.visited_of_child (forest : ns.Forest) {q p x : NameId} {flag d : Bool}
    (visited : (p, d) ∈ ns.definednessBelow q flag) (child : x ∈ ns.children p) :
    ∃ d, (x, d) ∈ ns.definednessBelow q flag := by
  induction q using forest.inductionDown generalizing flag with
  | step q ih =>
    obtain ⟨c, member, here | deeper⟩ := forest.mem_definednessBelow.mp visited
    · obtain rfl := here.1
      exact ⟨_, forest.mem_definednessBelow.mpr ⟨p, member, .inr (forest.child_visited _ child)⟩⟩
    · obtain ⟨d, further⟩ := ih c member deeper
      exact ⟨d, forest.mem_definednessBelow.mpr ⟨c, member, .inr further⟩⟩

/-- Everything below a name is visited. -/
theorem Forest.visited_of_mem_ancestors (forest : ns.Forest) {q x : NameId} (flag : Bool)
    (has : ns.Has x) (above : q ∈ ns.ancestors x) : ∃ d, (x, d) ∈ ns.definednessBelow q flag := by
  induction x using forest.inductionUp with
  | root x none =>
    rw [ancestors_of_root none] at above
    cases above
  | child x p below ih =>
    have child : x ∈ ns.children p := (forest.mem_children p x).mpr ⟨has, below⟩
    rw [forest.ancestors_of_child below, selfAndAncestors_eq] at above
    rcases List.mem_cons.mp above with rfl | higher
    · exact ⟨_, forest.child_visited flag child⟩
    · obtain ⟨d, visited⟩ := ih (forest.has_parent has below) higher
      exact forest.visited_of_child visited child

theorem nodup_of_increasing {ids : List NameId}
    (increasing : ids.Pairwise (·.index < ·.index)) : ids.Nodup :=
  increasing.imp fun smaller equal => Nat.ne_of_lt smaller (congrArg NameId.index equal)

/-- No name is visited twice. -/
theorem Forest.definednessBelow_nodup (forest : ns.Forest) (q : NameId) (flag : Bool) :
    (ns.definednessBelow q flag).Nodup := by
  induction q using forest.inductionDown generalizing flag with
  | step q ih =>
    -- Whatever is visited from a child has the child on its way up.
    have passed : ∀ {c x d}, (x, d) ∈ (c, flag && ns.isDefinedProperty c) ::
        ns.definednessBelow c (flag && ns.isDefinedProperty c) → c ∈ ns.selfAndAncestors x := by
      intro c x d visited
      rcases List.mem_cons.mp visited with same | deeper
      · rw [(Prod.mk.inj same).1]
        exact self_mem_selfAndAncestors c
      · rw [selfAndAncestors_eq]
        exact List.mem_cons_of_mem x (forest.mem_ancestors_of_visited deeper).2
    rw [forest.definednessBelow_eq, List.nodup_flatMap]
    constructor
    · intro c member
      refine List.nodup_cons.mpr ⟨fun again => ?_, ih c member _⟩
      exact Nat.lt_irrefl _
        (forest.index_lt_of_mem_ancestors (forest.mem_ancestors_of_visited again).2)
    · refine (nodup_of_increasing (forest.children_increasing q)).imp_of_mem ?_
      rintro c e memberC memberE different ⟨x, d⟩ fromC fromE
      have below := ((forest.mem_children q c).mp memberC).2
      have alsoBelow := ((forest.mem_children q e).mp memberE).2
      exact different
        (forest.eq_of_same_parent (passed fromC) (passed fromE) (below.trans alsoBelow.symm))

/-! ### All checked names -/

theorem mem_definedness {v : NameId × Bool} : v ∈ ns.definedness ↔
    ∃ r ∈ ns.rootOrder, ns.isDeclaredRoot r = true ∧ v ∈ ns.definednessBelow r true := by
  rw [definedness, List.mem_flatMap]
  constructor
  · rintro ⟨r, member, visited⟩
    split at visited
    next declared => exact ⟨r, member, declared, visited⟩
    next => cases visited
  · rintro ⟨r, member, declared, visited⟩
    exact ⟨r, member, by rwa [if_pos declared]⟩

/-- Every member of a checked root is visited, with the flag that the climb finds. -/
theorem Forest.mem_definedness_iff (forest : ns.Forest) (x : NameId) (d : Bool) :
    (x, d) ∈ ns.definedness ↔ ns.Has x ∧ (ns.name x).parent ≠ none ∧
      ns.isDeclaredRoot (ns.rootOf x) = true ∧ d = ns.isDefinedPath x := by
  have flag : ∀ {r d}, (ns.name r).parent = none → (x, d) ∈ ns.definednessBelow r true →
      d = ns.isDefinedPath x := by
    intro r d root visited
    rw [← isDefinedPath_of_root root] at visited
    exact forest.flag_eq_isDefinedPath r x d visited
  rw [mem_definedness]
  constructor
  · rintro ⟨r, member, declared, visited⟩
    have root := ((forest.mem_rootOrder r).mp member).2
    obtain ⟨has, above⟩ := forest.mem_ancestors_of_visited visited
    have passed : r ∈ ns.selfAndAncestors x := by
      rw [selfAndAncestors_eq]
      exact List.mem_cons_of_mem x above
    refine ⟨has, fun none => ?_, forest.eq_rootOf passed root ▸ declared, flag root visited⟩
    rw [ancestors_of_root none] at above
    cases above
  · rintro ⟨has, below, declared, rfl⟩
    obtain ⟨passed, root⟩ := forest.rootOf_spec x
    rw [selfAndAncestors_eq] at passed
    have above : ns.rootOf x ∈ ns.ancestors x := by
      refine (List.mem_cons.mp passed).resolve_left fun same => below ?_
      rw [same] at root
      exact root
    have hasRoot := forest.has_of_mem_selfAndAncestors x _ has (forest.rootOf_spec x).1
    obtain ⟨d, visited⟩ := forest.visited_of_mem_ancestors true has above
    refine ⟨_, (forest.mem_rootOrder _).mpr ⟨hasRoot, root⟩, declared, ?_⟩
    exact flag root visited ▸ visited

theorem Forest.definedness_nodup (forest : ns.Forest) : ns.definedness.Nodup := by
  have passed : ∀ {r v}, v ∈ (if ns.isDeclaredRoot r = true then ns.definednessBelow r true else []) →
      r ∈ ns.selfAndAncestors v.1 := by
    intro r v visited
    split at visited
    · rw [selfAndAncestors_eq]
      exact List.mem_cons_of_mem _ (forest.mem_ancestors_of_visited visited).2
    · cases visited
  rw [definedness, List.nodup_flatMap]
  constructor
  · intro r member
    split
    · exact forest.definednessBelow_nodup r true
    · exact List.nodup_nil
  · refine (nodup_of_increasing forest.roots_increasing).imp_of_mem ?_
    intro r s memberR memberS different v fromR fromS
    have root := ((forest.mem_rootOrder r).mp memberR).2
    have alsoRoot := ((forest.mem_rootOrder s).mp memberS).2
    exact different
      (forest.eq_of_same_parent (passed fromR) (passed fromS) (root.trans alsoRoot.symm))

end

end NameAudit.Namespace
