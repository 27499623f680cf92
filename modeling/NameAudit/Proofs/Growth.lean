import NameAudit.Proofs.Arena
import Mathlib.Logic.Relation

/-!
How a namespace grows. `Step` lists everything that a walk does to a namespace: it adds a root or a
child, adds a reference, or notes something about the value of a name. Every invariant of a namespace
is proved of these four steps, and holds of a whole run by `Grows`. Steps never move a name and
never change a reference (`Extends`).
-/
namespace NameAudit

namespace Namespace

/-- A change that only notes what is known about the value of a name. It links the name to names of
    the namespace only, and never to itself as its alias. -/
structure Notes (ns : Namespace) (id : NameId) (f : Name → Name) : Prop where
  core : ∀ n, (f n).core = n.core
  aliasOf : ∀ n t, (f n).aliasOf = some t → n.aliasOf = some t ∨ ns.Has t ∧ t ≠ id
  superclass : ∀ n t, (f n).superclass = some (.known t) → n.superclass = some (.known t) ∨ ns.Has t
  inheritsFrom : ∀ n t, (f n).inheritsFrom = some t → n.inheritsFrom = some t ∨ ns.Has t
  /-- A member of the prototype is never taken back. -/
  prototypeMembers : ∀ n, n.prototypeMembers ⊆ (f n).prototypeMembers

/-- What a walk does to a namespace at once. -/
inductive Step (ns : Namespace) : Namespace → Prop
  | root (base : String) (fresh : ns.root? base = none) :
      Step ns ((ns.pushName none base).fileRoot base ns.nextName)
  | child (parent : NameId) (base : String) (has : ns.Has parent)
      (fresh : ns.child? parent base = none) :
      Step ns ((ns.pushName (some parent) base).fileChild parent base ns.nextName)
  | reference (r : Ref) (has : ns.Has r.name) (numbered : r.id = ns.nextRef)
      (ordered : r.position.order = ns.refs.size) : Step ns (ns.addRef r)
  | note (id : NameId) (f : Name → Name) (notes : ns.Notes id f) : Step ns (ns.modifyName id f)

/-- What a walk does to a namespace. -/
def Grows : Namespace → Namespace → Prop := Relation.ReflTransGen Step

theorem Grows.refl (ns : Namespace) : Grows ns ns := Relation.ReflTransGen.refl

theorem Grows.trans {a b c : Namespace} (first : Grows a b) (second : Grows b c) : Grows a c :=
  Relation.ReflTransGen.trans first second

theorem Step.grows {a b : Namespace} (step : Step a b) : Grows a b :=
  Relation.ReflTransGen.single step

/-- What every step keeps, every run keeps. -/
theorem Grows.invariant {P : Namespace → Prop} (keeps : ∀ a b, Step a b → P a → P b)
    {a b : Namespace} (grows : Grows a b) (holds : P a) : P b := by
  induction grows with
  | refl => exact holds
  | tail _ step ih => exact keeps _ _ step ih

section
variable {ns : Namespace} {id : NameId} {f : Name → Name}

/-- A note can be read of every name by its core. -/
theorem Notes.core_name (notes : ns.Notes id f) (j : NameId) :
    ((ns.modifyName id f).name j).core = (ns.name j).core := by
  rw [name_modifyName]
  split
  · exact notes.core _
  · rfl

end

/-- The names of the one namespace stand at the same places in the other. -/
structure Extends (old new : Namespace) : Prop where
  has : ∀ id, old.Has id → new.Has id
  baseName : ∀ id, old.Has id → (new.name id).baseName = (old.name id).baseName
  parent : ∀ id, old.Has id → (new.name id).parent = (old.name id).parent

theorem Extends.refl (ns : Namespace) : Extends ns ns :=
  ⟨fun _ has => has, fun _ _ => rfl, fun _ _ => rfl⟩

theorem Extends.trans {a b c : Namespace} (first : Extends a b) (second : Extends b c) :
    Extends a c where
  has id present := second.has id (first.has id present)
  baseName id present :=
    (second.baseName id (first.has id present)).trans (first.baseName id present)
  parent id present := (second.parent id (first.has id present)).trans (first.parent id present)

theorem Notes.extends {old new : Namespace} {id : NameId} {f : Name → Name} (notes : old.Notes id f)
    (further : Extends old new) : new.Notes id f where
  core := notes.core
  aliasOf n t found := (notes.aliasOf n t found).imp_right fun ⟨has, other⟩ =>
    ⟨further.has t has, other⟩
  superclass n t found := (notes.superclass n t found).imp_right (further.has t)
  inheritsFrom n t found := (notes.inheritsFrom n t found).imp_right (further.has t)
  prototypeMembers := notes.prototypeMembers

/-- A note that is no link to another name. -/
theorem notes_of_unlinked (ns : Namespace) (id : NameId) {f : Name → Name}
    (core : ∀ n, (f n).core = n.core) (aliasOf : ∀ n, (f n).aliasOf = n.aliasOf)
    (superclass : ∀ n, (f n).superclass = n.superclass)
    (inheritsFrom : ∀ n, (f n).inheritsFrom = n.inheritsFrom)
    (prototypeMembers : ∀ n, n.prototypeMembers ⊆ (f n).prototypeMembers) : ns.Notes id f where
  core := core
  aliasOf n _ found := .inl ((aliasOf n).symm.trans found)
  superclass n _ found := .inl ((superclass n).symm.trans found)
  inheritsFrom n _ found := .inl ((inheritsFrom n).symm.trans found)
  prototypeMembers := prototypeMembers

/-- A new name is none of the names so far. -/
theorem name_pushName_of_has {ns : Namespace} {id : NameId} (has : ns.Has id)
    (parent : Option NameId) (base : String) : (ns.pushName parent base).name id = ns.name id := by
  rw [name_pushName, if_neg]
  rintro rfl
  exact ns.not_has_nextName has

theorem Step.extends {old new : Namespace} (step : Step old new) : Extends old new := by
  cases step with
  | root base fresh =>
    refine ⟨fun id has => ?_, fun id has => ?_, fun id has => ?_⟩
    · rw [has_fileRoot, has_pushName]
      exact .inl has
    · rw [name_fileRoot, name_pushName_of_has has]
    · rw [name_fileRoot, name_pushName_of_has has]
  | child parent base hasParent fresh =>
    refine ⟨fun id has => ?_, fun id has => ?_, fun id has => ?_⟩
    · rw [has_fileChild, has_pushName]
      exact .inl has
    · rw [name_fileChild, name_pushName_of_has has]
      split <;> rfl
    · rw [name_fileChild, name_pushName_of_has has]
      split <;> rfl
  | reference r hasName numbered ordered =>
    refine ⟨fun id has => (has_addRef old r id).mpr has, fun id has => ?_, fun id has => ?_⟩
    · exact (congrArg Name.baseName (withoutRefs_name_addRef old r id) :)
    · exact (congrArg Name.parent (withoutRefs_name_addRef old r id) :)
  | note id f notes =>
    refine ⟨fun j has => (has_modifyName old id j f).mpr has, fun j has => ?_, fun j has => ?_⟩
    · exact (congrArg Name.baseName (notes.core_name j) :)
    · exact (congrArg Name.parent (notes.core_name j) :)

theorem Grows.extends {a b : Namespace} (grows : Grows a b) : Extends a b := by
  induction grows with
  | refl => exact Extends.refl a
  | tail _ step ih => exact ih.trans step.extends

/-- What was noted as a member of the prototype of a name stays so. -/
theorem Step.prototypeMembers {old new : Namespace} (step : Step old new) {id : NameId}
    (has : old.Has id) : (old.name id).prototypeMembers ⊆ (new.name id).prototypeMembers := by
  have same : (new.name id).prototypeMembers = (old.name id).prototypeMembers →
      (old.name id).prototypeMembers ⊆ (new.name id).prototypeMembers :=
    fun equal => equal ▸ List.Subset.refl _
  cases step with
  | root base fresh => exact same (by rw [name_fileRoot, name_pushName_of_has has])
  | child parent base hasParent fresh =>
    refine same ?_
    rw [name_fileChild, name_pushName_of_has has]
    split <;> rfl
  | reference r hasName numbered ordered =>
    exact same (congrArg Name.prototypeMembers (withoutRefs_name_addRef old r id) :)
  | note j f notes =>
    rw [name_modifyName]
    split
    · exact notes.prototypeMembers _
    · exact List.Subset.refl _

theorem Grows.prototypeMembers {a b : Namespace} (grows : Grows a b) {id : NameId}
    (has : a.Has id) : (a.name id).prototypeMembers ⊆ (b.name id).prototypeMembers := by
  induction grows with
  | refl => exact List.Subset.refl _
  | tail earlier step ih =>
    exact List.Subset.trans ih (step.prototypeMembers ((Grows.extends earlier).has id has))

/-- Steps add references and keep the ones that there are. -/
theorem Step.ref {old new : Namespace} (step : Step old new) {i : RefId} (has : old.HasRef i) :
    new.HasRef i ∧ new.ref i = old.ref i := by
  cases step with
  | root | child | note => exact ⟨has, rfl⟩
  | reference r hasName numbered ordered =>
    have other : i ≠ old.nextRef := fun same =>
      Nat.ne_of_lt has ((old.eq_nextRef_iff i).mp same)
    refine ⟨(hasRef_addRef old r i).mpr (.inl has), ?_⟩
    rw [ref_addRef, if_neg other]

theorem Grows.ref {a b : Namespace} (grows : Grows a b) {i : RefId} (has : a.HasRef i) :
    b.HasRef i ∧ b.ref i = a.ref i :=
  grows.invariant (P := fun ns => ns.HasRef i ∧ ns.ref i = a.ref i)
    (fun _ _ step ⟨present, same⟩ => ⟨(step.ref present).1, (step.ref present).2.trans same⟩)
    ⟨has, rfl⟩

end Namespace
end NameAudit
