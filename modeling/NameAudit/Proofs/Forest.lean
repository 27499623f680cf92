import NameAudit.Proofs.Growth

/-!
The names of a namespace form a forest by their parents: a parent has a smaller number than its
child, the children of a name and the roots are filed under their base names, each once, and full
names are spelled from the root on. Links between names lead to names of the namespace, and no name
is its own alias. Every step keeps this (`Step.forest`, `Step.links`).
-/
namespace NameAudit

theorem findByBase_eq_none_iff (base : String) (entries : List (String × NameId)) :
    findByBase base entries = none ↔ ∀ id, (base, id) ∉ entries := by
  simp only [findByBase, Option.map_eq_none_iff, List.find?_eq_none, beq_iff_eq]
  constructor
  · intro absent id member
    exact absent (base, id) member rfl
  · rintro absent ⟨b, id⟩ member rfl
    exact absent id member

/-- Looking up a base name finds the only entry under it. -/
theorem findByBase_eq_some_iff {base : String} {entries : List (String × NameId)} {id : NameId}
    (unique : ∀ c d, (base, c) ∈ entries → (base, d) ∈ entries → c = d) :
    findByBase base entries = some id ↔ (base, id) ∈ entries := by
  have filed : ∀ c, findByBase base entries = some c → (base, c) ∈ entries := by
    intro c found
    obtain ⟨⟨b, d⟩, first, rfl⟩ := Option.map_eq_some_iff.mp found
    have same : b = base := by simpa using List.find?_some first
    exact same ▸ List.mem_of_find?_eq_some first
  constructor
  · exact filed id
  · intro member
    cases found : findByBase base entries with
    | none => exact absurd member ((findByBase_eq_none_iff base entries).mp found id)
    | some c => rw [unique c id (filed c found) member]

namespace Namespace

/-- The names form a forest, and are filed under their base names. -/
structure Forest (ns : Namespace) : Prop where
  id_eq : ∀ id, ns.Has id → (ns.name id).id = id
  parent_lt : ∀ id p, (ns.name id).parent = some p → p.index < id.index
  fullName_eq : ∀ id, ns.Has id →
    (ns.name id).fullName = ns.fullNameBelow (ns.name id).parent (ns.name id).baseName
  /-- Each name stands below its parent under its base name, and nothing else does. -/
  child_mem : ∀ p base id, (base, id) ∈ (ns.name p).children ↔
    ns.Has id ∧ (ns.name id).parent = some p ∧ (ns.name id).baseName = base
  /-- Each name without a parent is filed as a root under its base name, and nothing else is. -/
  root_mem : ∀ base id, (base, id) ∈ ns.roots ↔
    ns.Has id ∧ (ns.name id).parent = none ∧ (ns.name id).baseName = base
  unique : ∀ c d, ns.Has c → ns.Has d → (ns.name c).parent = (ns.name d).parent →
    (ns.name c).baseName = (ns.name d).baseName → c = d
  children_increasing : ∀ p, (ns.children p).Pairwise (·.index < ·.index)
  roots_increasing : ns.rootOrder.Pairwise (·.index < ·.index)

/-- Links lead to names, and an alias to another name. -/
structure Links (ns : Namespace) : Prop where
  aliasOf : ∀ id t, (ns.name id).aliasOf = some t → ns.Has t ∧ t ≠ id
  superclass : ∀ id t, (ns.name id).superclass = some (.known t) → ns.Has t
  inheritsFrom : ∀ id t, (ns.name id).inheritsFrom = some t → ns.Has t

theorem forest_empty : Forest {} := by
  have nameless : ∀ id, ¬ Has {} id := fun id has => absurd has (Nat.not_lt_zero _)
  have blank : ∀ id, name {} id = default := fun id => name_of_not_has {} (nameless id)
  refine ⟨fun id has => absurd has (nameless id), fun id p parent => ?_,
    fun id has => absurd has (nameless id), fun p base id => ?_, fun base id => ?_,
    fun c d has => absurd has (nameless c), fun p => ?_, List.Pairwise.nil⟩
  · rw [blank] at parent
    cases parent
  · rw [blank p]
    exact ⟨fun member => (List.not_mem_nil member).elim, fun h => absurd h.1 (nameless id)⟩
  · exact ⟨fun member => (List.not_mem_nil member).elim, fun h => absurd h.1 (nameless id)⟩
  · rw [children, blank p]
    exact List.Pairwise.nil

theorem links_empty : Links {} := by
  have blank : ∀ id, name {} id = default := fun id =>
    name_of_not_has {} (fun has => absurd has (Nat.not_lt_zero _))
  refine ⟨fun id t => ?_, fun id t => ?_, fun id t => ?_⟩ <;>
  · rw [blank]
    intro link
    cases link

section
variable {ns : Namespace}

theorem Forest.has_parent (forest : ns.Forest) {id p : NameId} (has : ns.Has id)
    (parent : (ns.name id).parent = some p) : ns.Has p :=
  Nat.lt_trans (forest.parent_lt id p parent) has

/-- The children map of a name. -/
theorem Forest.child?_eq_some_iff (forest : ns.Forest) (p id : NameId) (base : String) :
    ns.child? p base = some id ↔
      ns.Has id ∧ (ns.name id).parent = some p ∧ (ns.name id).baseName = base := by
  rw [child?, findByBase_eq_some_iff, forest.child_mem]
  intro c d first second
  obtain ⟨hasC, parentC, baseC⟩ := (forest.child_mem p base c).mp first
  obtain ⟨hasD, parentD, baseD⟩ := (forest.child_mem p base d).mp second
  exact forest.unique c d hasC hasD (parentC.trans parentD.symm) (baseC.trans baseD.symm)

/-- The map of roots. -/
theorem Forest.root?_eq_some_iff (forest : ns.Forest) (id : NameId) (base : String) :
    ns.root? base = some id ↔
      ns.Has id ∧ (ns.name id).parent = none ∧ (ns.name id).baseName = base := by
  rw [root?, findByBase_eq_some_iff, forest.root_mem]
  intro c d first second
  obtain ⟨hasC, parentC, baseC⟩ := (forest.root_mem base c).mp first
  obtain ⟨hasD, parentD, baseD⟩ := (forest.root_mem base d).mp second
  exact forest.unique c d hasC hasD (parentC.trans parentD.symm) (baseC.trans baseD.symm)

theorem Forest.mem_children (forest : ns.Forest) (q c : NameId) :
    c ∈ ns.children q ↔ ns.Has c ∧ (ns.name c).parent = some q := by
  rw [children, List.mem_map]
  constructor
  · rintro ⟨⟨base, c⟩, member, rfl⟩
    obtain ⟨has, parent, _⟩ := (forest.child_mem q base c).mp member
    exact ⟨has, parent⟩
  · rintro ⟨has, parent⟩
    exact ⟨(_, c), (forest.child_mem q _ c).mpr ⟨has, parent, rfl⟩, rfl⟩

theorem Forest.mem_rootOrder (forest : ns.Forest) (r : NameId) :
    r ∈ ns.rootOrder ↔ ns.Has r ∧ (ns.name r).parent = none := by
  rw [rootOrder, List.mem_map]
  constructor
  · rintro ⟨⟨base, r⟩, member, rfl⟩
    obtain ⟨has, root, _⟩ := (forest.root_mem base r).mp member
    exact ⟨has, root⟩
  · rintro ⟨has, root⟩
    exact ⟨(_, r), (forest.root_mem _ r).mpr ⟨has, root, rfl⟩, rfl⟩

end

/-! ### A new name -/

/-- One namespace has one name more than the other, filed below its parent or as a root. -/
structure Adds (old new : Namespace) (parent : Option NameId) (base : String) : Prop where
  has_parent : ∀ p, parent = some p → old.Has p
  fresh : ∀ id, old.Has id → (old.name id).parent = parent → (old.name id).baseName ≠ base
  has : ∀ id, new.Has id ↔ old.Has id ∨ id = old.nextName
  name_new : new.name old.nextName =
    { id := old.nextName, baseName := base, fullName := old.fullNameBelow parent base,
      parent := parent }
  name_old : ∀ id, id ≠ old.nextName → new.name id =
    { old.name id with
      children := (old.name id).children ++
        if parent = some id then [(base, old.nextName)] else [] }
  roots : new.roots = old.roots ++ if parent = none then [(base, old.nextName)] else []

section
variable {ns : Namespace}

theorem Forest.adds_root (forest : ns.Forest) {base : String} (fresh : ns.root? base = none) :
    Adds ns ((ns.pushName none base).fileRoot base ns.nextName) none base where
  has_parent p none := by cases none
  fresh id has parent same := by
    have filed : ns.root? base = some id := (forest.root?_eq_some_iff id base).mpr ⟨has, parent, same⟩
    rw [fresh] at filed
    cases filed
  has id := by rw [has_fileRoot, has_pushName]
  name_new := by rw [name_fileRoot, name_pushName, if_pos rfl]
  name_old id old := by
    rw [name_fileRoot, name_pushName, if_neg old]
    simp
  roots := by simp

theorem Forest.adds_child (forest : ns.Forest) {parent : NameId} {base : String}
    (has : ns.Has parent) (fresh : ns.child? parent base = none) :
    Adds ns ((ns.pushName (some parent) base).fileChild parent base ns.nextName) (some parent)
      base where
  has_parent p same := by
    cases same
    exact has
  fresh id hasId below same := by
    have filed : ns.child? parent base = some id :=
      (forest.child?_eq_some_iff parent id base).mpr ⟨hasId, below, same⟩
    rw [fresh] at filed
    cases filed
  has id := by rw [has_fileChild, has_pushName]
  name_new := by
    have different : ns.nextName ≠ parent := fun same => ns.not_has_nextName (same ▸ has)
    rw [name_fileChild, if_neg (fun h => different h.1), name_pushName, if_pos rfl]
  name_old id old := by
    rw [name_fileChild, name_pushName, if_neg old]
    by_cases same : id = parent
    · subst same
      have present : (ns.pushName (some id) base).Has id := (has_pushName ..).mpr (.inl has)
      simp [present]
    · simp [same, Ne.symm same]
  roots := by simp

end

section
variable {old new : Namespace} {parent : Option NameId} {base : String}

/-- A name that is not new stands where it stood. -/
theorem Adds.place (adds : Adds old new parent base) {id : NameId} (has : old.Has id) :
    (new.name id).id = (old.name id).id ∧ (new.name id).parent = (old.name id).parent ∧
      (new.name id).baseName = (old.name id).baseName ∧
      (new.name id).fullName = (old.name id).fullName := by
  have different : id ≠ old.nextName := fun same => old.not_has_nextName (same ▸ has)
  rw [adds.name_old id different]
  exact ⟨rfl, rfl, rfl, rfl⟩

theorem Adds.fullNameBelow (adds : Adds old new parent base) {above : Option NameId}
    (has : ∀ p, above = some p → old.Has p) (b : String) :
    new.fullNameBelow above b = old.fullNameBelow above b := by
  cases above with
  | none => rfl
  | some p => rw [Namespace.fullNameBelow, Namespace.fullNameBelow, (adds.place (has p rfl)).2.2.2]

theorem Adds.not_below_new (adds : Adds old new parent base) (forest : old.Forest) (id : NameId)
    (has : new.Has id) : (new.name id).parent ≠ some old.nextName := by
  intro below
  rcases (adds.has id).mp has with before | rfl
  · rw [(adds.place before).2.1] at below
    exact old.not_has_nextName (forest.has_parent before below)
  · rw [adds.name_new] at below
    exact old.not_has_nextName (adds.has_parent _ below)

theorem Adds.child_mem (adds : Adds old new parent base) (forest : old.Forest) (p : NameId)
    (b : String) (id : NameId) : (b, id) ∈ (new.name p).children ↔
      new.Has id ∧ (new.name id).parent = some p ∧ (new.name id).baseName = b := by
  by_cases newParent : p = old.nextName
  · subst newParent
    rw [adds.name_new]
    constructor
    · intro member
      cases member
    · rintro ⟨has, below, _⟩
      exact absurd below (adds.not_below_new forest id has)
  · rw [adds.name_old p newParent]
    by_cases newChild : id = old.nextName
    · subst newChild
      have unlisted : (b, old.nextName) ∉ (old.name p).children := fun member =>
        old.not_has_nextName ((forest.child_mem p b _).mp member).1
      rw [adds.name_new]
      by_cases below : parent = some p
      · simp [unlisted, below, adds.has, eq_comm]
      · simp [unlisted, below]
    · have kept := adds.name_old id newChild
      have unchanged : (b, id) ∉ if parent = some p then [(base, old.nextName)] else [] := by
        split <;> simp [newChild]
      rw [List.mem_append, or_iff_left unchanged, forest.child_mem, kept, adds.has,
        or_iff_left newChild]

theorem Adds.root_mem (adds : Adds old new parent base) (forest : old.Forest) (b : String)
    (id : NameId) : (b, id) ∈ new.roots ↔
      new.Has id ∧ (new.name id).parent = none ∧ (new.name id).baseName = b := by
  rw [adds.roots]
  by_cases newRoot : id = old.nextName
  · subst newRoot
    have unlisted : (b, old.nextName) ∉ old.roots := fun member =>
      old.not_has_nextName ((forest.root_mem b _).mp member).1
    rw [adds.name_new]
    by_cases below : parent = none
    · simp [unlisted, below, adds.has, eq_comm]
    · simp [unlisted, below]
  · have kept := adds.name_old id newRoot
    have unchanged : (b, id) ∉ if parent = none then [(base, old.nextName)] else [] := by
      split <;> simp [newRoot]
    rw [List.mem_append, or_iff_left unchanged, forest.root_mem, kept, adds.has,
      or_iff_left newRoot]

theorem Adds.unique (adds : Adds old new parent base) (forest : old.Forest) (c d : NameId)
    (hasC : new.Has c) (hasD : new.Has d) (parents : (new.name c).parent = (new.name d).parent)
    (bases : (new.name c).baseName = (new.name d).baseName) : c = d := by
  rcases (adds.has c).mp hasC with oldC | rfl
  · rw [(adds.place oldC).2.1, (adds.place oldC).2.2.1] at *
    rcases (adds.has d).mp hasD with oldD | rfl
    · rw [(adds.place oldD).2.1] at parents
      rw [(adds.place oldD).2.2.1] at bases
      exact forest.unique c d oldC oldD parents bases
    · rw [adds.name_new] at parents bases
      exact absurd bases (adds.fresh c oldC parents)
  · rcases (adds.has d).mp hasD with oldD | rfl
    · rw [adds.name_new, (adds.place oldD).2.1] at parents
      rw [adds.name_new, (adds.place oldD).2.2.1] at bases
      exact absurd bases.symm (adds.fresh d oldD parents.symm)
    · rfl

/-- The number of a new name is larger than all numbers before it. -/
theorem increasing_append_new {ids : List NameId} (increasing : ids.Pairwise (·.index < ·.index))
    (known : ∀ id ∈ ids, old.Has id) :
    (ids ++ [old.nextName]).Pairwise (·.index < ·.index) := by
  rw [List.pairwise_append]
  refine ⟨increasing, List.pairwise_singleton _ _, fun id member later isNew => ?_⟩
  rw [List.mem_singleton.mp isNew]
  exact known id member

theorem Adds.forest (adds : Adds old new parent base) (forest : old.Forest) : new.Forest where
  id_eq id has := by
    rcases (adds.has id).mp has with before | rfl
    · rw [(adds.place before).1, forest.id_eq id before]
    · rw [adds.name_new]
  parent_lt id p below := by
    by_cases isNew : id = old.nextName
    · subst isNew
      rw [adds.name_new] at below
      exact adds.has_parent p below
    · rw [adds.name_old id isNew] at below
      exact forest.parent_lt id p below
  fullName_eq id has := by
    rcases (adds.has id).mp has with before | rfl
    · obtain ⟨_, parentEq, baseEq, fullEq⟩ := adds.place before
      rw [fullEq, parentEq, baseEq, forest.fullName_eq id before]
      exact (adds.fullNameBelow (fun p below => forest.has_parent before below) _).symm
    · rw [adds.name_new]
      exact (adds.fullNameBelow adds.has_parent base).symm
  child_mem := adds.child_mem forest
  root_mem := adds.root_mem forest
  unique := adds.unique forest
  children_increasing p := by
    by_cases isNew : p = old.nextName
    · subst isNew
      rw [children, adds.name_new]
      exact List.Pairwise.nil
    · have known : ∀ id ∈ old.children p, old.Has id := fun id member =>
        ((forest.mem_children p id).mp member).1
      rw [children, adds.name_old p isNew]
      by_cases below : parent = some p
      · simpa [below, children] using increasing_append_new (forest.children_increasing p) known
      · simpa [below, children] using forest.children_increasing p
  roots_increasing := by
    have known : ∀ id ∈ old.rootOrder, old.Has id := fun id member =>
      ((forest.mem_rootOrder id).mp member).1
    rw [rootOrder, adds.roots]
    by_cases isRoot : parent = none
    · simpa [isRoot, rootOrder] using increasing_append_new forest.roots_increasing known
    · simpa [isRoot, rootOrder] using forest.roots_increasing

end

/-! ### Names that stay where they are -/

/-- No name of the one namespace stands elsewhere in the other. -/
structure SamePlaces (old new : Namespace) : Prop where
  has : ∀ id, new.Has id ↔ old.Has id
  place : ∀ id, (new.name id).core.withoutRefs = (old.name id).core.withoutRefs
  roots : new.roots = old.roots

theorem SamePlaces.forest {old new : Namespace} (same : SamePlaces old new) (forest : old.Forest) :
    new.Forest := by
  have idEq : ∀ j, (new.name j).id = (old.name j).id := fun j =>
    (congrArg Name.id (same.place j) :)
  have parent : ∀ j, (new.name j).parent = (old.name j).parent := fun j =>
    (congrArg Name.parent (same.place j) :)
  have baseName : ∀ j, (new.name j).baseName = (old.name j).baseName := fun j =>
    (congrArg Name.baseName (same.place j) :)
  have fullName : ∀ j, (new.name j).fullName = (old.name j).fullName := fun j =>
    (congrArg Name.fullName (same.place j) :)
  have children : ∀ j, (new.name j).children = (old.name j).children := fun j =>
    (congrArg Name.children (same.place j) :)
  have below : ∀ p b, new.fullNameBelow p b = old.fullNameBelow p b := by
    intro p b
    cases p with
    | none => rfl
    | some p => rw [fullNameBelow, fullNameBelow, fullName]
  obtain ⟨h₁, h₂, h₃, h₄, h₅, h₆, h₇, h₈⟩ := forest
  refine ⟨?_, ?_, ?_, ?_, ?_, ?_, ?_, ?_⟩
  · simpa only [same.has, idEq] using h₁
  · simpa only [parent] using h₂
  · simpa only [same.has, fullName, parent, baseName, below] using h₃
  · simpa only [same.has, children, parent, baseName] using h₄
  · simpa only [same.has, same.roots, parent, baseName] using h₅
  · simpa only [same.has, parent, baseName] using h₆
  · simpa only [Namespace.children, children] using h₇
  · simpa only [rootOrder, same.roots] using h₈

theorem samePlaces_addRef (ns : Namespace) (r : Ref) : SamePlaces ns (ns.addRef r) where
  has id := has_addRef ns r id
  place id := congrArg Name.core (withoutRefs_name_addRef ns r id)
  roots := rfl

theorem Notes.samePlaces {ns : Namespace} {id : NameId} {f : Name → Name} (notes : ns.Notes id f) :
    SamePlaces ns (ns.modifyName id f) where
  has j := has_modifyName ns id j f
  place j := congrArg Name.withoutRefs (notes.core_name j)
  roots := rfl

/-! ### Every step -/

theorem Step.forest {old new : Namespace} (step : Step old new) (forest : old.Forest) :
    new.Forest := by
  cases step with
  | root base fresh => exact (forest.adds_root fresh).forest forest
  | child parent base has fresh => exact (forest.adds_child has fresh).forest forest
  | reference r has numbered ordered => exact (samePlaces_addRef old r).forest forest
  | note id f notes => exact notes.samePlaces.forest forest

/-- Links are kept where names are only added, and each link is an old one or leads to a name. -/
theorem Links.of_kept {old new : Namespace} (links : old.Links) (further : Extends old new)
    (aliasOf : ∀ id t, (new.name id).aliasOf = some t →
      (old.name id).aliasOf = some t ∨ old.Has t ∧ t ≠ id)
    (superclass : ∀ id t, (new.name id).superclass = some (.known t) →
      (old.name id).superclass = some (.known t) ∨ old.Has t)
    (inheritsFrom : ∀ id t, (new.name id).inheritsFrom = some t →
      (old.name id).inheritsFrom = some t ∨ old.Has t) : new.Links where
  aliasOf id t link := by
    rcases aliasOf id t link with before | ⟨has, different⟩
    · exact ⟨further.has t (links.aliasOf id t before).1, (links.aliasOf id t before).2⟩
    · exact ⟨further.has t has, different⟩
  superclass id t link := by
    rcases superclass id t link with before | has
    · exact further.has t (links.superclass id t before)
    · exact further.has t has
  inheritsFrom id t link := by
    rcases inheritsFrom id t link with before | has
    · exact further.has t (links.inheritsFrom id t before)
    · exact further.has t has

/-- A new name has no links, and the links of the others stay. -/
theorem Adds.sameLinks {old new : Namespace} {parent : Option NameId} {base : String}
    (adds : Adds old new parent base) (id : NameId) :
    (new.name id).aliasOf = (old.name id).aliasOf ∧ (new.name id).superclass = (old.name id).superclass ∧
      (new.name id).inheritsFrom = (old.name id).inheritsFrom := by
  by_cases isNew : id = old.nextName
  · subst isNew
    rw [adds.name_new, name_of_not_has old old.not_has_nextName]
    exact ⟨rfl, rfl, rfl⟩
  · rw [adds.name_old id isNew]
    exact ⟨rfl, rfl, rfl⟩

theorem Adds.links {old new : Namespace} {parent : Option NameId} {base : String}
    (adds : Adds old new parent base) (further : Extends old new) (links : old.Links) :
    new.Links := by
  refine links.of_kept further (fun id t link => ?_) (fun id t link => ?_) (fun id t link => ?_)
  · exact .inl ((adds.sameLinks id).1 ▸ link)
  · exact .inl ((adds.sameLinks id).2.1 ▸ link)
  · exact .inl ((adds.sameLinks id).2.2 ▸ link)

theorem links_addRef {ns : Namespace} (links : ns.Links) (r : Ref)
    (further : Extends ns (ns.addRef r)) : (ns.addRef r).Links := by
  have kept := withoutRefs_name_addRef ns r
  refine links.of_kept further (fun id t link => ?_) (fun id t link => ?_) (fun id t link => ?_)
  · exact .inl ((congrArg Name.aliasOf (kept id) :).symm.trans link)
  · exact .inl ((congrArg Name.superclass (kept id) :).symm.trans link)
  · exact .inl ((congrArg Name.inheritsFrom (kept id) :).symm.trans link)

theorem Notes.links {ns : Namespace} {id : NameId} {f : Name → Name} (notes : ns.Notes id f)
    (links : ns.Links) (further : Extends ns (ns.modifyName id f)) :
    (ns.modifyName id f).Links := by
  have noted : ∀ j, (ns.modifyName id f).name j = f (ns.name j) ∧ j = id ∨
      (ns.modifyName id f).name j = ns.name j := by
    intro j
    rw [name_modifyName]
    split
    next here => exact .inl ⟨rfl, here.1⟩
    next => exact .inr rfl
  refine links.of_kept further (fun j t link => ?_) (fun j t link => ?_) (fun j t link => ?_)
  · rcases noted j with ⟨new, rfl⟩ | same
    · exact notes.aliasOf _ t (new ▸ link)
    · exact .inl (same ▸ link)
  · rcases noted j with ⟨new, rfl⟩ | same
    · exact notes.superclass _ t (new ▸ link)
    · exact .inl (same ▸ link)
  · rcases noted j with ⟨new, rfl⟩ | same
    · exact notes.inheritsFrom _ t (new ▸ link)
    · exact .inl (same ▸ link)

theorem Step.links {old new : Namespace} (step : Step old new) (forest : old.Forest)
    (links : old.Links) : new.Links := by
  have further := step.extends
  cases step with
  | root base fresh => exact (forest.adds_root fresh).links further links
  | child parent base has fresh => exact (forest.adds_child has fresh).links further links
  | reference r has numbered ordered => exact links_addRef links r further
  | note id f notes => exact notes.links links further

theorem Grows.forest {old new : Namespace} (grows : Grows old new) (forest : old.Forest) :
    new.Forest :=
  grows.invariant (fun _ _ step => step.forest) forest

theorem Grows.links {old new : Namespace} (grows : Grows old new) (forest : old.Forest)
    (links : old.Links) : new.Links := by
  induction grows with
  | refl => exact links
  | tail earlier step ih => exact step.links (Grows.forest earlier forest) ih

end Namespace
end NameAudit
