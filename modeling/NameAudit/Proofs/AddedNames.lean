import NameAudit.Proofs.AliasChains
import NameAudit.Proofs.AliasEquivalents
import NameAudit.Proofs.Visits

/-!
What a further name changes about the aliases of the others. A new name has no links, and nothing links to it, so it
is on no chain that there was; but the search follows as many links as there are names. Where a chain settles, that
makes no difference (`Creates.resolveAlias_eq`). Where it runs into a circle that its start is not on, each new name
lets the search go one link further round the circle, and so to another name (`Adds.resolveAlias_eq_iff`).
-/
namespace NameAudit.Namespace

/-- Names are created, one after another, and nothing else is done. -/
inductive Creates (old : Namespace) : Namespace → Prop
  | nothing : Creates old old
  | another {ns new : Namespace} {parent : Option NameId} {base : String} (before : Creates old ns)
      (adds : Adds ns new parent base) : Creates old new

section
variable {old new : Namespace} {id a t f : NameId} {parent : Option NameId} {base : String}

/-! ### What is created -/

theorem Adds.extends (adds : Adds old new parent base) : Extends old new where
  has id before := (adds.has id).mpr (.inl before)
  baseName _ before := (adds.place before).2.2.1
  parent _ before := (adds.place before).2.1

theorem Adds.size (adds : Adds old new parent base) : new.names.size = old.names.size + 1 := by
  have has : ∀ i, i < new.names.size ↔ i < old.names.size ∨ i = old.names.size := fun i => by
    rw [← old.eq_nextName_iff ⟨i⟩]
    exact adds.has ⟨i⟩
  have last := has old.names.size
  have beyond := has (old.names.size + 1)
  omega

theorem Creates.extends (creates : Creates old new) : Extends old new := by
  induction creates with
  | nothing => exact .refl old
  | another _ adds ih => exact ih.trans adds.extends

theorem Creates.forest (creates : Creates old new) (forest : old.Forest) : new.Forest := by
  induction creates with
  | nothing => exact forest
  | another _ adds ih => exact adds.forest ih

theorem Creates.aliasOf (creates : Creates old new) (a : NameId) :
    (new.name a).aliasOf = (old.name a).aliasOf := by
  induction creates with
  | nothing => rfl
  | another _ adds ih => exact (adds.sameLinks a).1.trans ih

theorem Creates.size_le (creates : Creates old new) : old.names.size ≤ new.names.size := by
  induction creates with
  | nothing => exact Nat.le_refl _
  | another _ adds ih =>
    rw [adds.size]
    exact Nat.le_succ_of_le ih

theorem Creates.trans {ns : Namespace} (before : Creates old ns) (after : Creates ns new) : Creates old new := by
  induction after with
  | nothing => exact before
  | another _ adds ih => exact .another ih adds

theorem Forest.creates_rootOrNew (forest : old.Forest) (base : String) : Creates old (old.rootOrNew base).2 := by
  cases found : old.root? base with
  | some id => simpa only [Namespace.rootOrNew, found] using Creates.nothing
  | none => simpa only [Namespace.rootOrNew, found] using Creates.nothing.another (forest.adds_root found)

theorem Forest.creates_childOrNew (forest : old.Forest) (has : old.Has id) (base : String) :
    Creates old (old.childOrNew id base).2 := by
  cases found : old.child? id base with
  | some id => simpa only [Namespace.childOrNew, found] using Creates.nothing
  | none => simpa only [Namespace.childOrNew, found] using Creates.nothing.another (forest.adds_child has found)

/-- Looking up a path, and adding what is missing of it, does nothing but create names. -/
theorem Forest.creates_descendOrNew (forest : old.Forest) (has : old.Has id) (bases : List String) :
    Creates old (old.descendOrNew id bases).2 := by
  induction bases generalizing old id with
  | nil => exact .nothing
  | cons base bases ih =>
    have first := forest.creates_childOrNew has base
    obtain ⟨-, hasChild, -, -⟩ := forest.childOrNew has base
    exact first.trans (ih (first.forest forest) hasChild)

/-! ### Alias targets -/

/-- The target of a name whose chain settles does not depend on how many names there are. -/
theorem Creates.resolveAlias_eq (creates : Creates old new) (settles : old.Settles id) :
    new.resolveAlias id = old.resolveAlias id := by
  rw [resolveAlias, followAliases_congr creates.aliasOf]
  exact settles.followAliases creates.size_le

/-- With one name more, the search from a name whose chain does not settle ends one link further on. -/
theorem Adds.resolveAlias_of_not_settles (adds : Adds old new parent base) (restless : ¬ old.Settles id) :
    (old.name (old.resolveAlias id)).aliasOf = some (new.resolveAlias id) := by
  have further := aliasAfter_of_not_settles restless (old.names.size + 1)
  rw [aliasAfter, aliasAfter_of_not_settles restless, Option.bind_some] at further
  rw [resolveAlias, resolveAlias, adds.size, followAliases_congr fun a => (adds.sameLinks a).1]
  exact further

theorem Adds.resolveAlias_eq_iff (adds : Adds old new parent base) (links : old.Links) :
    new.resolveAlias id = old.resolveAlias id ↔ old.Settles id := by
  constructor
  · intro same
    by_contra restless
    have further := adds.resolveAlias_of_not_settles restless
    rw [same] at further
    exact (links.aliasOf _ _ further).2 rfl
  · exact (Creates.nothing.another adds).resolveAlias_eq

theorem Links.has_followAliases (links : old.Links) (has : old.Has a) (start : NameId) (n : Nat) :
    old.Has (old.followAliases start n a) := by
  induction n generalizing a with
  | zero => exact has
  | succ n ih =>
    rw [followAliases]
    cases link : (old.name a).aliasOf with
    | none => exact has
    | some next =>
      by_cases back : next = start
      · simpa only [back, if_true] using has
      · simpa only [back, if_false] using ih (links.aliasOf a next link).1

/-! ### Alias equivalents -/

/-- What leads down to a name leads down by names that were there. -/
theorem Leads.has_start {bases : List String} (leads : old.Leads a bases f) (forest : old.Forest) (has : old.Has f) :
    old.Has a := by
  cases leads with
  | here => exact has
  | child hasChild parent _ => exact forest.has_parent hasChild parent

theorem Leads.has_end {bases : List String} (leads : old.Leads a bases f) (has : old.Has a) : old.Has f := by
  induction leads with
  | here => exact has
  | child hasChild _ _ ih => exact ih hasChild

theorem Extends.leads_iff (further : Extends old new) (forest : old.Forest) {bases : List String} (has : old.Has f) :
    new.Leads a bases f ↔ old.Leads a bases f := by
  constructor
  · intro leads
    induction leads with
    | here a => exact .here a
    | @child a c d bases _ parent _ ih =>
      have before := ih has
      have hasChild := before.has_start forest has
      rw [further.baseName d hasChild]
      exact .child hasChild ((further.parent d hasChild).symm.trans parent) before
  · intro leads
    induction leads with
    | here a => exact .here a
    | @child a c d bases hasChild parent _ ih =>
      rw [← further.baseName d hasChild]
      exact .child (further.has d hasChild) ((further.parent d hasChild).trans parent) (ih has)

/-- Of the names that were there, the same one is across the link of an ancestor. -/
theorem Creates.acrossAlias? (creates : Creates old new) (forest : old.Forest) (links : old.Links)
    {ancestor : NameId} (has : old.Has ancestor) (settles : ancestor = id ∨ old.Settles ancestor)
    (below : List String) : (new.acrossAlias? id ancestor below).filter (fun f => decide (old.Has f)) =
      old.acrossAlias? id ancestor below := by
  rw [Namespace.acrossAlias?, Namespace.acrossAlias?, creates.aliasOf]
  by_cases skipped : ancestor = id ∨ (old.name ancestor).aliasOf = none
  · simp [skipped]
  rw [if_neg skipped, if_neg skipped,
    creates.resolveAlias_eq (settles.resolve_left fun same => skipped (.inl same))]
  have target := links.has_followAliases has ancestor old.names.size
  have found : ∀ f, new.descend? (old.resolveAlias ancestor) below = some f ∧ old.Has f ↔
      old.descend? (old.resolveAlias ancestor) below = some f := by
    intro f
    rw [(creates.forest forest).descend?_eq_some_iff, forest.descend?_eq_some_iff]
    constructor
    · rintro ⟨leads, hasEnd⟩
      exact (creates.extends.leads_iff forest hasEnd).mp leads
    · intro leads
      have hasEnd := leads.has_end target
      exact ⟨(creates.extends.leads_iff forest hasEnd).mpr leads, hasEnd⟩
  ext f
  simp [Option.filter_eq_some_iff, ← found f, and_assoc, and_comm]

theorem Creates.acrossAliases (creates : Creates old new) (forest : old.Forest) (links : old.Links)
    {ancestors : List NameId} (has : ∀ a ∈ ancestors, old.Has a)
    (settle : ∀ a ∈ ancestors, a = id ∨ old.Settles a) (below : List String) :
    (new.acrossAliases id below ancestors).filter (fun f => decide (old.Has f)) =
      old.acrossAliases id below ancestors := by
  induction ancestors generalizing below with
  | nil => rfl
  | cons a ancestors ih =>
    obtain ⟨hasFirst, hasOthers⟩ := List.forall_mem_cons.mp has
    obtain ⟨settles, others⟩ := List.forall_mem_cons.mp settle
    rw [Namespace.acrossAliases, Namespace.acrossAliases, List.filter_append, ← Option.toList_filter,
      creates.acrossAlias? forest links hasFirst settles, creates.extends.baseName a hasFirst,
      ih hasOthers others]

/-- The names that were there are listed for a name as they were, if the chains of its ancestors settle. -/
theorem Creates.aliasEquivalents_eq (creates : Creates old new) (forest : old.Forest) (links : old.Links)
    (has : old.Has id) (settle : ∀ a ∈ old.ancestors id, old.Settles a) :
    (new.aliasEquivalents id).filter (fun f => decide (old.Has f)) = old.aliasEquivalents id := by
  rw [aliasEquivalents, aliasEquivalents, creates.extends.selfAndAncestors forest id has]
  refine creates.acrossAliases forest links (forest.has_of_mem_selfAndAncestors id · has) (fun a above => ?_) []
  rw [selfAndAncestors_eq, List.mem_cons] at above
  exact above.imp_right (settle a)

end

/-- Names that are created later change neither the alias target of a name nor which of the earlier names are
equivalent to it, if the chains in question settle. If the chain of a name does not, the next name changes its
target. Looking up a root, or what is below a name, does nothing but create names. -/
theorem aliases_of_created_names {old new : Namespace} (reached : Grows {} old) {id : NameId} (has : old.Has id) :
    (Creates old new → (old.Settles id → new.resolveAlias id = old.resolveAlias id) ∧
      ((∀ a ∈ old.ancestors id, old.Settles a) →
        (new.aliasEquivalents id).filter (fun f => decide (old.Has f)) = old.aliasEquivalents id)) ∧
    (∀ parent base, Adds old new parent base →
      (new.resolveAlias id = old.resolveAlias id ↔ old.Settles id)) ∧
    ∀ base bases, Creates old (old.rootOrNew base).2 ∧ Creates old (old.descendOrNew id bases).2 := by
  have forest := reached.forest forest_empty
  have links := reached.links forest_empty links_empty
  refine ⟨?settled, ?counted, ?lookedUp⟩
  case settled =>
    intro creates
    exact ⟨creates.resolveAlias_eq, creates.aliasEquivalents_eq forest links has⟩
  case counted =>
    intro parent base adds
    exact adds.resolveAlias_eq_iff links
  case lookedUp =>
    intro base bases
    exact ⟨forest.creates_rootOrNew base, forest.creates_descendOrNew has bases⟩

/-- A root `z` after `ns.C = C;`, `C.m = 1;` and `ns.C.m();`. -/
theorem aliases_of_created_names_of_copy :
    ∃ (old new : Namespace) (id : NameId), Grows {} old ∧ old.Has id ∧ Creates old new ∧ Adds old new none "z" ∧
      old.Settles id ∧ (∀ a ∈ old.ancestors id, old.Settles a) ∧ old.ancestors id ≠ [] ∧
      new.resolveAlias id = old.resolveAlias id ∧
      (new.aliasEquivalents id).filter (fun f => decide (old.Has f)) = old.aliasEquivalents id := by
  let copy : Expr := .member ⟨0, 4⟩ false (.ident ⟨0, 2⟩ "ns") "C"
  let p := Program.ofStatements
    [.mk ⟨0, 9⟩ none (.expr (.assign ⟨0, 8⟩ .plain copy (.ident ⟨7, 8⟩ "C"))),
      .mk ⟨10, 18⟩ none (.expr (.assign ⟨10, 17⟩ .plain (.member ⟨10, 13⟩ false (.ident ⟨10, 11⟩ "C") "m")
        (.literal ⟨16, 17⟩ (.number "1")))),
      .mk ⟨19, 28⟩ none (.expr (.call ⟨19, 27⟩ false
        (.member ⟨19, 25⟩ false (.member ⟨19, 23⟩ false (.ident ⟨19, 21⟩ "ns") "C") "m") []))]
  let old := ofProgram p
  have forest := ofProgram_forest p
  have has : old.Has ⟨4⟩ := by decide +kernel
  have unlinked : ∀ i ∈ [0, 2, 4], (old.name ⟨i⟩).aliasOf = none := by decide +kernel
  have link : old.aliasAfter ⟨1⟩ 1 = some ⟨2⟩ := by decide +kernel
  have settles : ∀ i ∈ [0, 2, 4], old.Settles ⟨i⟩ := fun i member =>
    have ends : old.EndsAfter ⟨i⟩ 0 ⟨i⟩ := ⟨rfl, unlinked i member⟩
    .inl ends.neverReturns
  have copied : old.EndsAfter ⟨1⟩ 1 ⟨2⟩ := ⟨link, unlinked 2 (by decide)⟩
  have up : old.ancestors ⟨4⟩ = [⟨1⟩, ⟨0⟩] := by
    rw [forest.ancestors_of_child (p := ⟨1⟩) (by decide +kernel),
      forest.selfAndAncestors_of_child (p := ⟨0⟩) (by decide +kernel),
      selfAndAncestors_of_root (by decide +kernel)]
  have above : ∀ a ∈ old.ancestors ⟨4⟩, old.Settles a := by
    simpa [up] using ⟨.inl copied.neverReturns, settles 0 (by decide)⟩
  have fresh : old.root? "z" = none := by decide +kernel
  have adds := forest.adds_root fresh
  have creates := Creates.nothing.another adds
  obtain ⟨kept, counted, -⟩ := aliases_of_created_names (ofProgram_grows p) has
  exact ⟨old, _, ⟨4⟩, ofProgram_grows p, has, creates, adds, settles 4 (by decide), above, by simp [up],
    (counted none "z" adds).mpr (settles 4 (by decide)), (kept creates).2 above⟩

/-- After `x = a;`, `a = b;` and `b = a;`, the chain of `x` runs into a circle that `x` is not on. An unrelated root
`z` changes the alias target of `x` from `a` to `b`, so that after `b.p = 1;` the name `x.p` is equivalent to `b.p`,
and only then. So does a statement `z;` at the end of the program. -/
theorem aliases_changed_by_created_name :
    ∃ (p q : Program) (x member : NameId),
      let old := ofProgram p
      let new := (old.rootOrNew "z").2
      Grows {} old ∧ Creates old new ∧ old.Has x ∧ old.Has member ∧ old.resolveAlias x = ⟨1⟩ ∧
        new.resolveAlias x = ⟨2⟩ ∧ (ofProgram q).resolveAlias x = ⟨2⟩ ∧ old.aliasEquivalents member = [] ∧
        (new.aliasEquivalents member).filter (fun f => decide (old.Has f)) = [⟨3⟩] := by
  let copy (start : Nat) (target source : String) : Stmt :=
    .mk ⟨start, start + 6⟩ none (.expr (.assign ⟨start, start + 5⟩ .plain (.ident ⟨start, start + 1⟩ target)
      (.ident ⟨start + 4, start + 5⟩ source)))
  let body : List Stmt :=
    [copy 0 "x" "a", copy 7 "a" "b", copy 14 "b" "a",
      .mk ⟨21, 29⟩ none (.expr (.assign ⟨21, 28⟩ .plain (.member ⟨21, 24⟩ false (.ident ⟨21, 22⟩ "b") "p")
        (.literal ⟨27, 28⟩ (.number "1")))),
      .mk ⟨30, 36⟩ none (.expr (.call ⟨30, 35⟩ false
        (.member ⟨30, 33⟩ false (.ident ⟨30, 31⟩ "x") "p") []))]
  let p := Program.ofStatements body
  let q := Program.ofStatements (body ++ [.mk ⟨37, 39⟩ none (.expr (.ident ⟨37, 38⟩ "z"))])
  let old := ofProgram p
  have forest := ofProgram_forest p
  have creates := forest.creates_rootOrNew "z"
  have up : old.selfAndAncestors ⟨4⟩ = [⟨4⟩, ⟨0⟩] := by
    rw [forest.selfAndAncestors_of_child (p := ⟨0⟩) (by decide +kernel),
      selfAndAncestors_of_root (by decide +kernel)]
  have has : old.Has ⟨4⟩ := by decide +kernel
  have still := creates.extends.selfAndAncestors forest ⟨4⟩ has
  refine ⟨p, q, ⟨0⟩, ⟨4⟩, ofProgram_grows p, creates, by decide +kernel, has, by decide +kernel, by decide +kernel,
    by decide +kernel, ?_, ?_⟩
  · rw [aliasEquivalents, up]
    decide +kernel
  · rw [aliasEquivalents, still, up]
    decide +kernel

end NameAudit.Namespace
