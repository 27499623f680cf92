import NameAudit.Namespace.Alias
import NameAudit.Proofs.Build

/-!
The names on the other side of the links above a name. An ancestor of the name that was assigned from another name
has an alias target, and the base names that lead from the ancestor down to the name are followed from the target
(`IsAcross`). Going up, the search has at each ancestor the base names from there on (`Forest.acrossAliases_lists`),
so it lists what each ancestor contributes, the innermost one first (`ofProgram_aliasEquivalents`).
-/
namespace NameAudit.Namespace

/-- Base names lead from a name down to another, child by child. -/
inductive Leads (ns : Namespace) : NameId → List String → NameId → Prop
  | here (a : NameId) : Leads ns a [] a
  | child {a c d : NameId} {bases : List String} (has : ns.Has d) (parent : (ns.name d).parent = some a)
    (further : Leads ns d bases c) : Leads ns a ((ns.name d).baseName :: bases) c

/-- A name that stands to the alias target of an ancestor as another name does to the ancestor. -/
structure IsAcross (ns : Namespace) (id ancestor f : NameId) : Prop where
  linked : (ns.name ancestor).aliasOf ≠ none
  alike : ∃ bases, ns.Leads ancestor bases id ∧ ns.Leads (ns.resolveAlias ancestor) bases f
  other : f ≠ id

/-- What some ancestors contribute, in their order. -/
inductive ListsAcross (ns : Namespace) (id : NameId) : List NameId → List NameId → Prop
  | nil : ListsAcross ns id [] []
  | found {a f : NameId} {ancestors fs : List NameId} (across : ns.IsAcross id a f)
    (others : ListsAcross ns id ancestors fs) : ListsAcross ns id (a :: ancestors) (f :: fs)
  | nothing {a : NameId} {ancestors fs : List NameId} (none : ∀ f, ¬ ns.IsAcross id a f)
    (others : ListsAcross ns id ancestors fs) : ListsAcross ns id (a :: ancestors) fs

section
variable {ns : Namespace} {id a c d f : NameId} {bases below : List String}

/-- What leads down from a name leads down from its parent as well. -/
theorem Leads.up {p : NameId} (leads : ns.Leads a bases c) (parent : (ns.name a).parent = some p) :
    ns.Leads p ((ns.name a).baseName :: bases) c :=
  .child (ns.has_of_noted Name.parent rfl parent) parent leads

theorem Forest.descend?_eq_some_iff (forest : ns.Forest) : ns.descend? a bases = some c ↔ ns.Leads a bases c := by
  constructor
  · intro found
    induction bases generalizing a with
    | nil =>
      obtain rfl := Option.some.inj found
      exact .here a
    | cons base bases ih =>
      cases first : ns.child? a base with
      | none => simp [descend?, first] at found
      | some d =>
        simp only [descend?, first] at found
        obtain ⟨has, parent, rfl⟩ := (forest.child?_eq_some_iff a d base).mp first
        exact .child has parent (ih found)
  · intro leads
    induction leads with
    | here a => rfl
    | @child a c d bases has parent further ih =>
      have first := (forest.child?_eq_some_iff a d _).mpr ⟨has, parent, rfl⟩
      simp only [descend?, first, ih]

/-- A name is spelled by the base names that lead to it. -/
theorem Leads.spelling (leads : ns.Leads a bases c) (forest : ns.Forest) :
    ns.spelling c = ns.spelling a ++ bases := by
  induction leads with
  | here a => simp
  | child has parent further ih => rw [ih, forest.spelling_of_child parent, List.append_assoc, List.singleton_append]

/-- There is only one way down to a name. -/
theorem Leads.unique (leads : ns.Leads a bases c) (also : ns.Leads a below c) (forest : ns.Forest) :
    bases = below :=
  List.append_cancel_left ((leads.spelling forest).symm.trans (also.spelling forest))

/-- Base names lead to one name only. -/
theorem Leads.eq (leads : ns.Leads a bases c) (also : ns.Leads a bases d) (forest : ns.Forest) : c = d :=
  Option.some.inj ((forest.descend?_eq_some_iff.mpr leads).symm.trans (forest.descend?_eq_some_iff.mpr also))

/-- What the search looks for at an ancestor, if it knows the base names from there on. -/
theorem Forest.acrossAlias?_eq_some_iff (forest : ns.Forest) (leads : ns.Leads a below id) (above : a ≠ id) :
    ns.acrossAlias? id a below = some f ↔ ns.IsAcross id a f := by
  have found : ns.acrossAlias? id a below = some f ↔
      (ns.name a).aliasOf ≠ none ∧ ns.Leads (ns.resolveAlias a) below f ∧ f ≠ id := by
    rw [← forest.descend?_eq_some_iff, acrossAlias?]
    by_cases unlinked : (ns.name a).aliasOf = none
    · simp [unlinked]
    · simp [unlinked, above, Option.filter_eq_some_iff]
  rw [found]
  constructor
  · rintro ⟨linked, across, other⟩
    exact ⟨linked, ⟨below, leads, across⟩, other⟩
  · rintro ⟨linked, ⟨bases, way, across⟩, other⟩
    obtain rfl := way.unique leads forest
    exact ⟨linked, across, other⟩

/-- The search goes on above an ancestor as it does from there. -/
theorem Forest.acrossAliases_cons (forest : ns.Forest) {ancestors : List NameId}
    (leads : ns.Leads a below id) (above : a.index < id.index)
    (others : ns.ListsAcross id ancestors (ns.acrossAliases id ((ns.name a).baseName :: below) ancestors)) :
    ns.ListsAcross id (a :: ancestors) (ns.acrossAliases id below (a :: ancestors)) := by
  have different : a ≠ id := by
    rintro rfl
    exact Nat.lt_irrefl _ above
  have contributes : ∀ f, ns.acrossAlias? id a below = some f ↔ ns.IsAcross id a f := fun f =>
    forest.acrossAlias?_eq_some_iff leads different
  rw [acrossAliases]
  cases here : ns.acrossAlias? id a below with
  | none =>
    refine .nothing (fun f across => ?_) others
    rw [(contributes f).mpr across] at here
    cases here
  | some f => exact .found ((contributes f).mp here) others

/-- From an ancestor up, the search lists what each ancestor contributes. -/
theorem Forest.acrossAliases_lists (forest : ns.Forest) (leads : ns.Leads a below id)
    (above : a.index < id.index) :
    ns.ListsAcross id (ns.selfAndAncestors a) (ns.acrossAliases id below (ns.selfAndAncestors a)) := by
  induction a using forest.inductionUp generalizing below with
  | root a none =>
    rw [selfAndAncestors_of_root none]
    exact forest.acrossAliases_cons leads above .nil
  | child a p parent ih =>
    rw [forest.selfAndAncestors_of_child parent]
    have higher := Nat.lt_trans (forest.parent_lt a p parent) above
    exact forest.acrossAliases_cons leads above (ih (leads.up parent) higher)

theorem Forest.aliasEquivalents_lists (forest : ns.Forest) (id : NameId) :
    ns.ListsAcross id (ns.ancestors id) (ns.aliasEquivalents id) := by
  -- The name itself is passed without a look at its own link.
  have own : ∀ ancestors, ns.acrossAliases id [] (id :: ancestors) =
      ns.acrossAliases id [(ns.name id).baseName] ancestors := fun ancestors => by
    simp [acrossAliases, acrossAlias?]
  cases parent : (ns.name id).parent with
  | none =>
    rw [aliasEquivalents, selfAndAncestors_of_root parent, ancestors_of_root parent, own]
    exact .nil
  | some p =>
    rw [aliasEquivalents, forest.selfAndAncestors_of_child parent, forest.ancestors_of_child parent, own]
    exact forest.acrossAliases_lists ((Leads.here id).up parent) (forest.parent_lt id p parent)

/-- No ancestor contributes more than one name. -/
theorem IsAcross.eq (across : ns.IsAcross id a c) (also : ns.IsAcross id a d) (forest : ns.Forest) : c = d := by
  obtain ⟨bases, way, there⟩ := across.alike
  obtain ⟨others, otherWay, alsoThere⟩ := also.alike
  obtain rfl := way.unique otherWay forest
  exact there.eq alsoThere forest

theorem ListsAcross.mem_iff {ancestors fs : List NameId} (lists : ns.ListsAcross id ancestors fs)
    (forest : ns.Forest) : f ∈ fs ↔ ∃ a ∈ ancestors, ns.IsAcross id a f := by
  induction lists with
  | nil => simp
  | @found a g ancestors fs across others ih =>
    have own : f = g ↔ ns.IsAcross id a f :=
      ⟨fun same => same ▸ across, fun also => also.eq across forest⟩
    simp [ih, own]
  | nothing none others ih => simp [ih, none]

end

/-- In the namespace of a program, the alias equivalents of a name are what its proper ancestors contribute, the
innermost first: each one with a link the name that is reached from its alias target along the base names that lead
from it down to the name, if all of these are there and lead to another name. -/
theorem ofProgram_aliasEquivalents (p : Program) (id : NameId) :
    let ns := ofProgram p
    ∃ above, ns.WayUp id above ∧ ns.ListsAcross id above (ns.aliasEquivalents id) ∧
      ∀ f, f ∈ ns.aliasEquivalents id ↔ ∃ a ∈ above, ns.IsAcross id a f := by
  intro ns
  have forest := ofProgram_forest p
  have lists := forest.aliasEquivalents_lists id
  exact ⟨ns.ancestors id, forest.wayUp_iff.mpr rfl, lists, fun f => lists.mem_iff forest⟩

end NameAudit.Namespace
