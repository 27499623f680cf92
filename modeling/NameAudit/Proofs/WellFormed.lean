import NameAudit.Proofs.Build
import NameAudit.Proofs.Definedness

/-!
What can be relied on in the namespace of a program. Its names are a forest with maps from base names
to children and roots, whatever is linked or listed exists, and what each name lists and counts of its
references are summaries of the references themselves.
-/
namespace NameAudit.Namespace

/-! ### The forest of names -/

/-- The names are a forest, its maps and links can be followed, and no recursion along it is cut
    short. -/
structure WellFormed (ns : Namespace) : Prop where
  forest : ns.Forest
  links : ns.Links
  child?_eq : ∀ p base c, ns.child? p base = some c ↔
    ns.Has c ∧ (ns.name c).parent = some p ∧ (ns.name c).baseName = base
  root?_eq : ∀ base c, ns.root? base = some c ↔
    ns.Has c ∧ (ns.name c).parent = none ∧ (ns.name c).baseName = base
  rootOrder_eq : ns.rootOrder = ns.nameIds.filter fun id => (ns.name id).isRoot
  children_has : ∀ p, ∀ c ∈ ns.children p, ns.Has c
  sets_hasRef : ∀ n, ∀ i ∈ (ns.name n).sets, ns.HasRef i
  uses_hasRef : ∀ n, ∀ i ∈ (ns.name n).uses, ns.HasRef i
  declaration_hasRef : ∀ n, ∀ i ∈ (ns.name n).declaration, ns.HasRef i
  selfAndAncestors_eq : ∀ id p, (ns.name id).parent = some p →
    ns.selfAndAncestors id = id :: ns.selfAndAncestors p
  firstUndefined_eq : ∀ id p, (ns.name id).parent = some p →
    ns.firstUndefined id = if ns.isDefinedPath p then id else ns.firstUndefined p
  definednessBelow_eq : ∀ q flag, ns.definednessBelow q flag =
    (ns.children q).flatMap fun c =>
      (c, flag && ns.isDefinedProperty c) ::
        ns.definednessBelow c (flag && ns.isDefinedProperty c)

/-- Two increasing lists of the same names are one list. -/
theorem eq_of_increasing {ids others : List NameId}
    (increasing : ids.Pairwise (·.index < ·.index))
    (increasingToo : others.Pairwise (·.index < ·.index)) (same : ∀ id, id ∈ ids ↔ id ∈ others) :
    ids = others := by
  have perm : ids.Perm others := (List.perm_ext_iff_of_nodup (nodup_of_increasing increasing)
    (nodup_of_increasing increasingToo)).mpr same
  refine perm.eq_of_pairwise (fun a b _ _ before after => ?_) increasing increasingToo
  exact absurd (Nat.lt_trans before after) (Nat.lt_irrefl _)

theorem Forest.rootOrder_eq {ns : Namespace} (forest : ns.Forest) :
    ns.rootOrder = ns.nameIds.filter fun id => (ns.name id).isRoot := by
  refine eq_of_increasing forest.roots_increasing (ns.nameIds_increasing.filter _) fun id => ?_
  rw [forest.mem_rootOrder, List.mem_filter, mem_nameIds, Name.isRoot, Option.isNone_iff_eq_none]

/-- The namespace of a program is a well-formed forest. -/
theorem ofProgram_wellFormed (p : Program) : (ofProgram p).WellFormed where
  forest := ofProgram_forest p
  links := ofProgram_links p
  child?_eq q base c := (ofProgram_forest p).child?_eq_some_iff q c base
  root?_eq base c := (ofProgram_forest p).root?_eq_some_iff c base
  rootOrder_eq := (ofProgram_forest p).rootOrder_eq
  children_has q c member := (((ofProgram_forest p).mem_children q c).mp member).1
  sets_hasRef n i member := by
    rw [(ofProgram_tallied p).sets_eq] at member
    exact ((lists_refsWhere _ _).2 i |>.mp member).1
  uses_hasRef n i member := by
    rw [(ofProgram_tallied p).uses_eq] at member
    exact ((lists_refsWhere _ _).2 i |>.mp member).1
  declaration_hasRef n i member := by
    rw [(ofProgram_tallied p).declaration_eq] at member
    exact ((lists_refsWhere _ _).2 i |>.mp (List.mem_of_mem_head? member)).1
  selfAndAncestors_eq _ _ below := (ofProgram_forest p).selfAndAncestors_of_child below
  firstUndefined_eq _ _ below := (ofProgram_forest p).firstUndefined_of_child below
  definednessBelow_eq q flag := (ofProgram_forest p).definednessBelow_eq q flag

/-! ### The summaries of references -/

/-- The first reference with a property, if there is any. -/
def IsFirst (ns : Namespace) (P : Ref → Prop) : Option RefId → Prop
  | none => ∀ i, ns.HasRef i → ¬ P (ns.ref i)
  | some i => (ns.HasRef i ∧ P (ns.ref i)) ∧
    ∀ j, ns.HasRef j → P (ns.ref j) → i.index ≤ j.index

/-- References are numbered in the order of evaluation, and the lists, the counters and the first
    declaration of every name are those of the references to it. -/
structure Summarizes (ns : Namespace) : Prop where
  id_eq : ∀ i, ns.HasRef i → (ns.ref i).id = i
  order_eq : ∀ i, ns.HasRef i → (ns.ref i).position.order = i.index
  sets : ∀ n, ns.Lists (ns.name n).sets fun r => r.name = n ∧ r.type = .set
  uses : ∀ n, ns.Lists (ns.name n).uses fun r => r.name = n ∧ r.type ≠ .set
  refsOf : ∀ n, ns.Lists (ns.refsOf n) fun r => r.name = n
  /-- Each reference is in one list of one name, and there once. -/
  once : ∀ i, ns.HasRef i → ns.Has (ns.ref i).name ∧
    ∀ n, (ns.name n).sets.count i + (ns.name n).uses.count i =
      if (ns.ref i).name = n then 1 else 0
  globalSets : ∀ n, (ns.name n).globalSets =
    ns.refs.toList.countP fun r => r.name = n ∧ r.type = .set ∧ r.isGlobal = true
  localSets : ∀ n, (ns.name n).localSets =
    ns.refs.toList.countP fun r => r.name = n ∧ r.type = .set ∧ r.isGlobal = false
  aliasingGets : ∀ n, (ns.name n).aliasingGets =
    ns.refs.toList.countP fun r => r.name = n ∧ r.type = .aliasingGet
  declaration : ∀ n, ns.IsFirst (fun r => r.name = n ∧ r.type = .set ∧ r.isGlobal = true)
    (ns.name n).declaration

section
variable (ns : Namespace)

theorem map_ref_refIds : ns.refIds.map ns.ref = ns.refs.toList := by
  refine List.ext_getElem (by simp [refIds]) fun i inside _ => ?_
  have small : i < ns.refs.size := by simpa [refIds] using inside
  simp [refIds, ref, small]

theorem length_refsWhere (P : Ref → Bool) :
    (ns.refsWhere P).length = ns.refs.toList.countP P := by
  rw [refsWhere, ← List.countP_eq_length_filter, ← map_ref_refIds, List.countP_map]
  rfl

theorem count_refsWhere (P : Ref → Bool) {i : RefId} (has : ns.HasRef i) :
    (ns.refsWhere P).count i = if P (ns.ref i) = true then 1 else 0 := by
  rw [(ns.lists_refsWhere P).nodup.count]
  simp only [(ns.lists_refsWhere P).2, has, true_and]

theorem isFirst_refsWhere (P : Ref → Bool) :
    ns.IsFirst (fun r => P r = true) (ns.refsWhere P).head? := by
  obtain ⟨increasing, member⟩ := ns.lists_refsWhere P
  cases listed : ns.refsWhere P with
  | nil =>
    intro i has holds
    have here := (member i).mpr ⟨has, holds⟩
    rw [listed] at here
    cases here
  | cons i ids =>
    rw [listed] at increasing member
    refine ⟨(member i).mp List.mem_cons_self, fun j has holds => ?_⟩
    rcases List.mem_cons.mp ((member j).mpr ⟨has, holds⟩) with rfl | later
    · exact Nat.le_refl _
    · exact Nat.le_of_lt (List.rel_of_pairwise_cons increasing later)

end

theorem Tallied.summarizes {ns : Namespace} (tallied : ns.Tallied) : ns.Summarizes where
  id_eq := tallied.id_eq
  order_eq := tallied.order_eq
  sets n := by
    rw [tallied.sets_eq]
    simpa only [decide_eq_true_eq] using ns.lists_refsWhere fun r => r.name = n ∧ r.type = .set
  uses n := by
    rw [tallied.uses_eq]
    simpa only [decide_eq_true_eq] using ns.lists_refsWhere fun r => r.name = n ∧ r.type ≠ .set
  refsOf := tallied.lists_refsOf
  once i has := by
    refine ⟨tallied.has_name i has, fun n => ?_⟩
    rw [tallied.sets_eq, tallied.uses_eq, ns.count_refsWhere _ has, ns.count_refsWhere _ has]
    by_cases here : (ns.ref i).name = n <;> by_cases isSet : (ns.ref i).type = .set <;>
      simp [here, isSet]
  globalSets n := by rw [tallied.globalSets_eq, length_refsWhere]
  localSets n := by rw [tallied.localSets_eq, length_refsWhere]
  aliasingGets n := by rw [tallied.aliasingGets_eq, length_refsWhere]
  declaration n := by
    rw [tallied.declaration_eq]
    simpa only [decide_eq_true_eq] using
      ns.isFirst_refsWhere fun r => r.name = n ∧ r.type = .set ∧ r.isGlobal = true

/-- What the names of a program list and count of their references is right. -/
theorem ofProgram_summarizes (p : Program) : (ofProgram p).Summarizes :=
  (ofProgram_tallied p).summarizes

end NameAudit.Namespace
