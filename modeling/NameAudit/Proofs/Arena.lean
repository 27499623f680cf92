import NameAudit.Check

/-!
What the operations on a namespace do to its names, its references and the roots, each looked up by
number. Later modules rest on these equations and never open an operation again.
-/
namespace NameAudit

namespace Name

/-- A name without the references to it. -/
def withoutRefs (n : Name) : Name :=
  { n with
    sets := []
    uses := []
    declaration := none
    globalSets := 0
    localSets := 0
    aliasingGets := 0 }

/-- A name without what is known about its value: its place in the forest and its references. -/
def core (n : Name) : Name :=
  { n with
    kind := .other
    hasUnknownMembers := false
    aliasOf := none
    superclass := none
    inheritsFrom := none
    prototypeMembers := []
    declaredType := false }

theorem addRef_eq (n : Name) (i : RefId) (t : RefType) (g : Bool) :
    n.addRef i t g =
      { n with
        sets := if t = .set then n.sets ++ [i] else n.sets
        uses := if t = .set then n.uses else n.uses ++ [i]
        declaration := if t = .set ∧ g = true then some (n.declaration.getD i) else n.declaration
        globalSets := if t = .set ∧ g = true then n.globalSets + 1 else n.globalSets
        localSets := if t = .set ∧ g = false then n.localSets + 1 else n.localSets
        aliasingGets := if t = .aliasingGet then n.aliasingGets + 1 else n.aliasingGets } := by
  cases t <;> cases g <;> rfl

theorem withoutRefs_addRef (n : Name) (i : RefId) (t : RefType) (g : Bool) :
    (n.addRef i t g).withoutRefs = n.withoutRefs := by
  rw [addRef_eq]
  rfl

theorem mem_insertSorted (s t : String) (ts : List String) :
    t ∈ insertSorted s ts ↔ t = s ∨ t ∈ ts := by
  induction ts with
  | nil => simp [insertSorted]
  | cons u us ih =>
    rw [insertSorted]
    split
    next same => simp [same]
    next =>
      split
      · simp
      · simp [ih, or_left_comm]

/-- The members of a prototype are those that it had and the added ones. -/
theorem mem_addPrototypeMembers (n : Name) (members : List String) (m : String) :
    m ∈ (n.addPrototypeMembers members).prototypeMembers ↔ m ∈ n.prototypeMembers ∨ m ∈ members := by
  have folded : ∀ known : List String,
      m ∈ members.foldl (fun known m => insertSorted m known) known ↔ m ∈ known ∨ m ∈ members := by
    induction members with
    | nil => simp
    | cons first rest ih =>
      intro known
      rw [List.foldl_cons, ih, mem_insertSorted, List.mem_cons, or_assoc, or_left_comm]
  exact folded n.prototypeMembers

end Name

namespace Namespace

/-- The number is that of a name. -/
def Has (ns : Namespace) (id : NameId) : Prop := id.index < ns.names.size

/-- The number is that of a reference. -/
def HasRef (ns : Namespace) (i : RefId) : Prop := i.index < ns.refs.size

instance (ns : Namespace) (id : NameId) : Decidable (ns.Has id) :=
  inferInstanceAs (Decidable (id.index < ns.names.size))

variable (ns : Namespace)

theorem mem_nameIds (id : NameId) : id ∈ ns.nameIds ↔ ns.Has id := by
  simp only [nameIds, Has, List.mem_map, List.mem_range]
  constructor
  · rintro ⟨i, small, rfl⟩
    exact small
  · intro small
    exact ⟨id.index, small, rfl⟩

theorem mem_refIds (i : RefId) : i ∈ ns.refIds ↔ ns.HasRef i := by
  simp only [refIds, HasRef, List.mem_map, List.mem_range]
  constructor
  · rintro ⟨j, small, rfl⟩
    exact small
  · intro small
    exact ⟨i.index, small, rfl⟩

theorem nameIds_increasing : ns.nameIds.Pairwise (·.index < ·.index) := by
  rw [nameIds, List.pairwise_map]
  exact List.pairwise_lt_range

theorem refIds_increasing : ns.refIds.Pairwise (·.index < ·.index) := by
  rw [refIds, List.pairwise_map]
  exact List.pairwise_lt_range

theorem name_of_not_has {id : NameId} (absent : ¬ ns.Has id) : ns.name id = default := by
  have outside : ns.names[id.index]? = none := Array.getElem?_eq_none (by simpa [Has] using absent)
  rw [name, outside]
  rfl

/-- A name with something noted that is blank by default is there. -/
theorem has_of_noted {α : Type} (noted : Name → Option α) (blank : noted default = none) {id : NameId} {v : α}
    (found : noted (ns.name id) = some v) : ns.Has id := by
  refine Decidable.byContradiction fun absent => ?_
  rw [name_of_not_has ns absent, blank] at found
  cases found

theorem not_has_nextName : ¬ ns.Has ns.nextName := by simp [Has, nextName]

theorem eq_nextName_iff (id : NameId) : id = ns.nextName ↔ id.index = ns.names.size := by
  rw [NameId.ext_iff]
  rfl

theorem eq_nextRef_iff (i : RefId) : i = ns.nextRef ↔ i.index = ns.refs.size := by
  rw [RefId.ext_iff]
  rfl

/-! ### Changing a name -/

@[simp] theorem has_modifyName (target id : NameId) (f : Name → Name) :
    (ns.modifyName target f).Has id ↔ ns.Has id := by
  simp [Has, modifyName]

theorem name_modifyName (target id : NameId) (f : Name → Name) :
    (ns.modifyName target f).name id =
      if id = target ∧ ns.Has id then f (ns.name id) else ns.name id := by
  by_cases present : ns.Has id
  · have inside : ns.names[id.index]? = some ns.names[id.index] := Array.getElem?_eq_getElem present
    by_cases same : id = target
    · subst same
      simp [name, modifyName, Array.getElem?_modify, inside, present]
    · have different : ¬ target.index = id.index := fun equal => same (NameId.ext equal.symm)
      simp [name, modifyName, Array.getElem?_modify, same, different]
  · have absent : ¬ (ns.modifyName target f).Has id := by simpa using present
    rw [name_of_not_has _ absent, name_of_not_has _ present, if_neg (fun h => present h.2)]

/-! ### Adding a name -/

@[simp] theorem size_pushName (parent : Option NameId) (base : String) :
    (ns.pushName parent base).names.size = ns.names.size + 1 := by
  simp [pushName]

@[simp] theorem roots_pushName (parent : Option NameId) (base : String) :
    (ns.pushName parent base).roots = ns.roots := rfl

theorem has_pushName (parent : Option NameId) (base : String) (id : NameId) :
    (ns.pushName parent base).Has id ↔ ns.Has id ∨ id = ns.nextName := by
  rw [eq_nextName_iff, Has, Has, size_pushName]
  omega

/-- The full name of a name below another, or of a root. -/
def fullNameBelow (parent : Option NameId) (base : String) : String :=
  match parent with
  | some p => (ns.name p).fullName ++ "." ++ base
  | none => base

theorem name_pushName (parent : Option NameId) (base : String) (id : NameId) :
    (ns.pushName parent base).name id =
      if id = ns.nextName then
        { id := id, baseName := base, fullName := ns.fullNameBelow parent base, parent := parent }
      else ns.name id := by
  by_cases new : id = ns.nextName
  · subst new
    simp only [name, pushName, nextName, Array.getElem?_push_size, if_true]
    rfl
  · have old : ¬ id.index = ns.names.size := fun equal => new ((ns.eq_nextName_iff id).mpr equal)
    simp [name, pushName, Array.getElem?_push, new, old]

/-! ### Filing a name under its base name -/

@[simp] theorem name_fileRoot (base : String) (id j : NameId) :
    (ns.fileRoot base id).name j = ns.name j := rfl

@[simp] theorem has_fileRoot (base : String) (id j : NameId) :
    (ns.fileRoot base id).Has j ↔ ns.Has j := Iff.rfl

@[simp] theorem roots_fileRoot (base : String) (id : NameId) :
    (ns.fileRoot base id).roots = ns.roots ++ [(base, id)] := rfl

@[simp] theorem has_fileChild (parent : NameId) (base : String) (id j : NameId) :
    (ns.fileChild parent base id).Has j ↔ ns.Has j := by
  simp [fileChild]

@[simp] theorem roots_fileChild (parent : NameId) (base : String) (id : NameId) :
    (ns.fileChild parent base id).roots = ns.roots := rfl

theorem name_fileChild (parent : NameId) (base : String) (id j : NameId) :
    (ns.fileChild parent base id).name j =
      if j = parent ∧ ns.Has j then
        { ns.name j with children := (ns.name j).children ++ [(base, id)] }
      else ns.name j := by
  rw [fileChild, name_modifyName]

/-! ### Following links -/

/-- The search looks at the links only. -/
theorem followAliases_congr {old new : Namespace} (same : ∀ a, (new.name a).aliasOf = (old.name a).aliasOf)
    (start : NameId) (n : Nat) (current : NameId) :
    new.followAliases start n current = old.followAliases start n current := by
  induction n generalizing current with
  | zero => rfl
  | succ n ih =>
    rw [followAliases, followAliases, same]
    simp only [ih]

/-! ### Creating names -/

@[simp] theorem refs_rootOrNew (base : String) : (ns.rootOrNew base).2.refs = ns.refs := by
  unfold rootOrNew
  split <;> rfl

@[simp] theorem refs_childOrNew (parent : NameId) (base : String) :
    (ns.childOrNew parent base).2.refs = ns.refs := by
  unfold childOrNew
  split <;> rfl

@[simp] theorem refs_descendOrNew (id : NameId) (bases : List String) :
    (ns.descendOrNew id bases).2.refs = ns.refs := by
  induction bases generalizing ns id with
  | nil => rfl
  | cons base bases ih => exact (ih _ _).trans (refs_childOrNew ns id base)

/-! ### Adding a reference -/

@[simp] theorem has_addRef (r : Ref) (id : NameId) : (ns.addRef r).Has id ↔ ns.Has id := by
  simp [addRef, Has, modifyName]

@[simp] theorem refs_addRef (r : Ref) : (ns.addRef r).refs = ns.refs.push r := rfl

theorem hasRef_addRef (r : Ref) (i : RefId) :
    (ns.addRef r).HasRef i ↔ ns.HasRef i ∨ i = ns.nextRef := by
  rw [eq_nextRef_iff, HasRef, HasRef, refs_addRef, Array.size_push]
  omega

theorem refIds_addRef (r : Ref) : (ns.addRef r).refIds = ns.refIds ++ [ns.nextRef] := by
  simp [refIds, List.range_succ, nextRef]

theorem ref_addRef (r : Ref) (i : RefId) :
    (ns.addRef r).ref i = if i = ns.nextRef then r else ns.ref i := by
  by_cases new : i = ns.nextRef
  · subst new
    simp [ref, nextRef]
  · have old : ¬ i.index = ns.refs.size := fun equal => new ((ns.eq_nextRef_iff i).mpr equal)
    simp [ref, Array.getElem?_push, new, old]

theorem name_addRef (r : Ref) (id : NameId) :
    (ns.addRef r).name id =
      if id = r.name ∧ ns.Has id then (ns.name id).addRef ns.nextRef r.type r.isGlobal
      else ns.name id :=
  name_modifyName { ns with refs := ns.refs.push r } r.name id _

/-- A reference changes nothing about a name but what is listed and counted of its references. -/
theorem withoutRefs_name_addRef (r : Ref) (id : NameId) :
    ((ns.addRef r).name id).withoutRefs = (ns.name id).withoutRefs := by
  rw [name_addRef]
  split
  · exact Name.withoutRefs_addRef _ _ _ _
  · rfl

end Namespace
end NameAudit
