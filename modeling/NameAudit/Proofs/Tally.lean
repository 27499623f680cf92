import NameAudit.Proofs.Forest

/-!
What a name lists and counts of its references agrees with the references themselves: the sets and
the uses of a name are the references to it of either kind, in the order of evaluation, and the
counters and the first declaration are read off them. Every step keeps this (`Step.tallied`), as the
lists, the counters and the first declaration change with the references only.
-/
namespace NameAudit

/-- What a name lists and counts of its references, and nothing else. -/
def Name.refsOnly (n : Name) : Name :=
  { (default : Name) with
    sets := n.sets
    uses := n.uses
    declaration := n.declaration
    globalSets := n.globalSets
    localSets := n.localSets
    aliasingGets := n.aliasingGets }

namespace Namespace

/-- The references with a property, in the order of evaluation. -/
def refsWhere (ns : Namespace) (P : Ref → Bool) : List RefId :=
  ns.refIds.filter fun i => P (ns.ref i)

/-- The numbers are those of the references with a property, in increasing order. -/
def Lists (ns : Namespace) (ids : List RefId) (P : Ref → Prop) : Prop :=
  ids.Pairwise (·.index < ·.index) ∧ ∀ i, i ∈ ids ↔ ns.HasRef i ∧ P (ns.ref i)

/-- The lists and counters of every name agree with the references. -/
structure Tallied (ns : Namespace) : Prop where
  id_eq : ∀ i, ns.HasRef i → (ns.ref i).id = i
  order_eq : ∀ i, ns.HasRef i → (ns.ref i).position.order = i.index
  has_name : ∀ i, ns.HasRef i → ns.Has (ns.ref i).name
  sets_eq : ∀ n, (ns.name n).sets = ns.refsWhere fun r => r.name = n ∧ r.type = .set
  uses_eq : ∀ n, (ns.name n).uses = ns.refsWhere fun r => r.name = n ∧ r.type ≠ .set
  declaration_eq : ∀ n, (ns.name n).declaration =
    (ns.refsWhere fun r => r.name = n ∧ r.type = .set ∧ r.isGlobal = true).head?
  globalSets_eq : ∀ n, (ns.name n).globalSets =
    (ns.refsWhere fun r => r.name = n ∧ r.type = .set ∧ r.isGlobal = true).length
  localSets_eq : ∀ n, (ns.name n).localSets =
    (ns.refsWhere fun r => r.name = n ∧ r.type = .set ∧ r.isGlobal = false).length
  aliasingGets_eq : ∀ n, (ns.name n).aliasingGets =
    (ns.refsWhere fun r => r.name = n ∧ r.type = .aliasingGet).length

theorem lists_refsWhere (ns : Namespace) (P : Ref → Bool) :
    ns.Lists (ns.refsWhere P) (fun r => P r = true) := by
  refine ⟨ns.refIds_increasing.filter _, fun i => ?_⟩
  rw [refsWhere, List.mem_filter, mem_refIds]

theorem Lists.nodup {ns : Namespace} {ids : List RefId} {P : Ref → Prop} (lists : ns.Lists ids P) :
    ids.Nodup :=
  lists.1.imp fun smaller equal => Nat.ne_of_lt smaller (congrArg RefId.index equal)

theorem tallied_empty : Tallied {} := by
  have blank : ∀ id, name {} id = default := fun id =>
    name_of_not_has {} (fun has => absurd has (Nat.not_lt_zero _))
  have none : ∀ i, ¬ HasRef {} i := fun i has => absurd has (Nat.not_lt_zero _)
  refine ⟨fun i has => absurd has (none i), fun i has => absurd has (none i),
    fun i has => absurd has (none i), ?_, ?_, ?_, ?_, ?_, ?_⟩ <;>
  · intro n
    rw [blank]
    rfl

/-- A namespace with the same references and the same lists and counters is tallied as well. -/
theorem Tallied.of_same {old new : Namespace} (tallied : old.Tallied) (refs : new.refs = old.refs)
    (has : ∀ id, old.Has id → new.Has id)
    (same : ∀ n, (new.name n).refsOnly = (old.name n).refsOnly) : new.Tallied := by
  have hasRef : ∀ i, new.HasRef i ↔ old.HasRef i := fun i => by rw [HasRef, HasRef, refs]
  have ref : ∀ i, new.ref i = old.ref i := fun i => by rw [Namespace.ref, Namespace.ref, refs]
  have listed : ∀ P, new.refsWhere P = old.refsWhere P := by
    intro P
    simp only [refsWhere, refIds, ref, refs]
  refine ⟨fun i here => ?_, fun i here => ?_, fun i here => ?_, fun n => ?_, fun n => ?_,
    fun n => ?_, fun n => ?_, fun n => ?_, fun n => ?_⟩
  · rw [ref, tallied.id_eq i ((hasRef i).mp here)]
  · rw [ref, tallied.order_eq i ((hasRef i).mp here)]
  · rw [ref]
    exact has _ (tallied.has_name i ((hasRef i).mp here))
  · rw [listed, ← tallied.sets_eq n]
    exact (congrArg Name.sets (same n) :)
  · rw [listed, ← tallied.uses_eq n]
    exact (congrArg Name.uses (same n) :)
  · rw [listed, ← tallied.declaration_eq n]
    exact (congrArg Name.declaration (same n) :)
  · rw [listed, ← tallied.globalSets_eq n]
    exact (congrArg Name.globalSets (same n) :)
  · rw [listed, ← tallied.localSets_eq n]
    exact (congrArg Name.localSets (same n) :)
  · rw [listed, ← tallied.aliasingGets_eq n]
    exact (congrArg Name.aliasingGets (same n) :)

theorem Adds.refsOnly {old new : Namespace} {parent : Option NameId} {base : String}
    (adds : Adds old new parent base) (n : NameId) :
    (new.name n).refsOnly = (old.name n).refsOnly := by
  by_cases isNew : n = old.nextName
  · subst isNew
    rw [adds.name_new, name_of_not_has old old.not_has_nextName]
    rfl
  · rw [adds.name_old n isNew]
    rfl

/-! ### A new reference -/

theorem refsWhere_addRef (ns : Namespace) (r : Ref) (P : Ref → Bool) :
    (ns.addRef r).refsWhere P = ns.refsWhere P ++ if P r = true then [ns.nextRef] else [] := by
  have before : ∀ i ∈ ns.refIds, P ((ns.addRef r).ref i) = P (ns.ref i) := by
    intro i member
    have old : i ≠ ns.nextRef := by
      rintro rfl
      exact absurd ((mem_refIds ns _).mp member) (Nat.lt_irrefl _)
    rw [ref_addRef, if_neg old]
  rw [refsWhere, refIds_addRef, List.filter_append, refsWhere, List.filter_congr before]
  by_cases holds : P r = true <;> simp [ref_addRef, holds]

theorem Tallied.addRef {ns : Namespace} (tallied : ns.Tallied) {r : Ref} (has : ns.Has r.name)
    (numbered : r.id = ns.nextRef) (ordered : r.position.order = ns.refs.size) :
    (ns.addRef r).Tallied := by
  have inside : ∀ {i}, (ns.addRef r).HasRef i → i ≠ ns.nextRef → ns.HasRef i :=
    fun here old => ((hasRef_addRef ns r _).mp here).resolve_right old
  refine ⟨fun i here => ?_, fun i here => ?_, fun i here => ?_, fun n => ?_, fun n => ?_,
    fun n => ?_, fun n => ?_, fun n => ?_, fun n => ?_⟩
  · rw [ref_addRef]
    split
    next new => rw [numbered, new]
    next old => exact tallied.id_eq i (inside here old)
  · rw [ref_addRef]
    split
    next new => rw [ordered, new, nextRef]
    next old => exact tallied.order_eq i (inside here old)
  · rw [ref_addRef, has_addRef]
    split
    next => exact has
    next old => exact tallied.has_name i (inside here old)
  all_goals
    rw [name_addRef, refsWhere_addRef]
    by_cases here : n = r.name
    · subst here
      rw [if_pos ⟨rfl, has⟩, Name.addRef_eq]
      by_cases isSet : r.type = .set <;> by_cases isGlobal : r.isGlobal = true <;>
        by_cases isAlias : r.type = .aliasingGet <;>
        simp [isSet, isGlobal, isAlias, tallied.sets_eq, tallied.uses_eq, tallied.declaration_eq,
          tallied.globalSets_eq, tallied.localSets_eq, tallied.aliasingGets_eq]
    · rw [if_neg (fun h => here h.1)]
      simp [Ne.symm here, tallied.sets_eq, tallied.uses_eq, tallied.declaration_eq,
        tallied.globalSets_eq, tallied.localSets_eq, tallied.aliasingGets_eq]

theorem Step.tallied {old new : Namespace} (step : Step old new) (forest : old.Forest)
    (tallied : old.Tallied) : new.Tallied := by
  have further := step.extends
  cases step with
  | root base fresh =>
    exact tallied.of_same rfl further.has (forest.adds_root fresh).refsOnly
  | child parent base has fresh =>
    exact tallied.of_same rfl further.has (forest.adds_child has fresh).refsOnly
  | reference r has numbered ordered => exact tallied.addRef has numbered ordered
  | note id f notes =>
    exact tallied.of_same rfl further.has fun n =>
      (congrArg Name.refsOnly (notes.core_name n) :)

theorem Grows.tallied {old new : Namespace} (grows : Grows old new) (forest : old.Forest)
    (tallied : old.Tallied) : new.Tallied := by
  induction grows with
  | refl => exact tallied
  | tail earlier step ih => exact step.tallied (Grows.forest earlier forest) ih

/-- Sets and uses together are all references to the name. -/
theorem Tallied.refsOf_eq {ns : Namespace} (tallied : ns.Tallied) (n : NameId) :
    ns.refsOf n = ns.refsWhere fun r => r.name = n := by
  have split : ((ns.name n).sets ++ (ns.name n).uses).Perm (ns.refsWhere fun r => r.name = n) := by
    rw [tallied.sets_eq, tallied.uses_eq]
    have parted := List.filter_append_perm (fun i => decide ((ns.ref i).type = .set))
      (ns.refsWhere fun r => r.name = n)
    simpa [refsWhere, List.filter_filter, Bool.and_comm] using parted
  have sorted : (ns.refsOf n).Pairwise (fun i j => decide (i.index ≤ j.index) = true) :=
    List.pairwise_mergeSort (fun i j k => by simpa using Nat.le_trans)
      (fun i j => by simpa using Nat.le_total _ _) _
  have increasing := (lists_refsWhere ns fun r => r.name = n).1
  refine ((List.mergeSort_perm _ _).trans split).eq_of_pairwise (fun i j _ _ before after => ?_)
    sorted (increasing.imp fun smaller => decide_eq_true (Nat.le_of_lt smaller))
  exact RefId.ext (Nat.le_antisymm (of_decide_eq_true before) (of_decide_eq_true after))

theorem Tallied.lists_refsOf {ns : Namespace} (tallied : ns.Tallied) (n : NameId) :
    ns.Lists (ns.refsOf n) fun r => r.name = n := by
  have listed := ns.lists_refsWhere fun r => r.name = n
  simpa only [tallied.refsOf_eq, decide_eq_true_eq] using listed

/-- A reference sets a name. -/
def IsSetOf (ns : Namespace) (d : RefId) (n : NameId) : Prop :=
  ns.HasRef d ∧ (ns.ref d).name = n ∧ (ns.ref d).type = .set

theorem Tallied.mem_sets {ns : Namespace} (tallied : ns.Tallied) (d : RefId) (n : NameId) :
    d ∈ (ns.name n).sets ↔ ns.IsSetOf d n := by
  rw [tallied.sets_eq, (ns.lists_refsWhere _).2]
  simp [IsSetOf]

theorem Tallied.isDefined_iff {ns : Namespace} (tallied : ns.Tallied) (n : NameId) :
    (ns.name n).isDefined = true ↔ ∃ d, ns.IsSetOf d n := by
  rw [Name.isDefined, Bool.not_eq_true', List.isEmpty_eq_false_iff_exists_mem]
  exact exists_congr fun d => tallied.mem_sets d n

end Namespace
end NameAudit
