import NameAudit.Proofs.InheritedStatics

/-!
When a name that nothing sets is a member of its parent all the same. The check finds it by trying one
reason after another (`Namespace.isImpliedMember`); here the reasons stand side by side, each as a
proposition of its own (`isImpliedMember_iff`), so what is known of a name can be compared with what is
known of another.
-/
namespace NameAudit

/-- The kind of a name says which members its value has: it is an object literal, a class, or a
    function that a comment marks. -/
def Name.IsStructured (n : Name) : Prop :=
  n.kind = .objectLiteral ∨ n.kind = .classDef ∨ n.kind = .func ∧ n.declaredType = true

instance (n : Name) : Decidable n.IsStructured := inferInstanceAs (Decidable (_ ∨ _ ∨ _))

namespace Namespace

/-- What `s` holds, which is `X.superClass_` of some `X`, has no members but those of the function `y`,
    which a comment marks and `X` inherits from. -/
structure PassesOn (ns : Namespace) (y : NameId) (s : Name) : Prop where
  key : s.baseName = inheritedKey
  inherits : ∃ x, s.parent = some x ∧ (ns.name x).inheritsFrom = some y
  kind : (ns.name y).kind = .func
  marked : (ns.name y).declaredType = true

section
variable {ns : Namespace}

theorem isDefinedProperty_iff (id : NameId) : ns.isDefinedProperty id = true ↔
    ∀ q, (ns.name id).parent = some q →
      (ns.name id).isDefined = true ∨ ns.isImpliedMember q (ns.name id).baseName = true := by
  unfold isDefinedProperty
  split
  next none => simp [none]
  next q below => simp [below]

theorem rootPrototypeHas_iff (root base : String) : ns.rootPrototypeHas root base = true ↔
    ∃ id, ns.root? root = some id ∧ base ∈ (ns.name id).prototypeMembers := by
  unfold rootPrototypeHas
  split
  next id found => simp [found]
  next none => simp [none]

theorem isAliased_iff (id : NameId) : ns.isAliased id = true ↔
    ∃ a ∈ ns.selfAndAncestors id, 0 < (ns.name a).aliasingGets := by
  simp [isAliased]

/-- Where `X` inherits from `y`, no other function passes members on to what `X.superClass_` holds. -/
theorem PassesOn.eq_of_inherits {s : Name} {x y z : NameId} (passes : ns.PassesOn z s)
    (below : s.parent = some x) (inherits : (ns.name x).inheritsFrom = some y) : z = y := by
  obtain ⟨_, ⟨w, above, source⟩, _, _⟩ := passes
  obtain rfl : w = x := Option.some_inj.mp (above.symm.trans below)
  exact Option.some_inj.mp (source.symm.trans inherits)

/-- The members of what `X.superClass_` holds are restricted by a marked constructor only. -/
theorem inheritsMember_iff (s : Name) (base : String) : ns.inheritsMember s base = true ↔
    ∀ y, ns.PassesOn y s →
      ns.hasDefinedChild y base = true ∨ base ∈ (ns.name y).prototypeMembers := by
  unfold inheritsMember
  split
  next key =>
    split
    next nothing =>
      refine iff_of_true rfl ?_
      rintro y ⟨_, ⟨x, below, inherits⟩, _, _⟩
      rw [below, Option.bind_some, inherits] at nothing
      cases nothing
    next y found =>
      obtain ⟨x, below, inherits⟩ := Option.bind_eq_some_iff.mp found
      have only : ∀ z, ns.PassesOn z s → z = y := fun z passes =>
        passes.eq_of_inherits below inherits
      dsimp only
      split
      next marked =>
        simp only [Bool.or_eq_true, List.contains_iff_mem]
        constructor
        · intro has z passes
          rwa [only z passes]
        · intro has
          exact has y ⟨key, ⟨x, below, inherits⟩, marked.1, marked.2⟩
      next unmarked =>
        refine iff_of_true rfl fun z passes => absurd ?_ unmarked
        exact only z passes ▸ ⟨passes.kind, passes.marked⟩
  next other => exact iff_of_true rfl fun y passes => absurd passes.key other

theorem inheritsStatic_iff (superclass : Option Superclass) (base : String) :
    ns.inheritsStatic superclass base = true ↔ superclass ≠ none ∧
      ∀ s, superclass = some (.known s) → ns.hasKnownStatics s = true →
        ns.hasDefinedChild s base = true := by
  cases superclass with
  | none => simp [inheritsStatic]
  | some above =>
    cases above with
    | unknown => simp [inheritsStatic]
    | known s =>
      cases known : ns.hasKnownStatics s <;> simp [inheritsStatic, known]

/-- The reasons why a name that nothing sets is a member of its parent. -/
theorem isImpliedMember_iff (id : NameId) (base : String) :
    ns.isImpliedMember id base = true ↔
      ns.IsOpen id ∨ base = inheritedKey ∨ ns.isObjectMember base = true ∨
        (ns.name id).kind = .classDef ∧ ns.inheritsStatic (ns.name id).superclass base = true ∨
        (ns.name id).kind = .func ∧ (ns.name id).declaredType = true ∧
          ns.isFunctionMember base = true ∨
        ¬ (ns.name id).IsStructured ∧ ns.inheritsMember (ns.name id) base = true := by
  have anyKind : ns.isAliased id = true ∨ (ns.name id).hasUnknownMembers = true ↔ ns.IsOpen id := by
    rw [isAliased_iff, IsOpen, or_comm]
  simp only [isImpliedMember, Bool.or_eq_true, anyKind, beq_iff_eq, or_assoc]
  refine or_congr_right (or_congr_right (or_congr_right ?_))
  cases kind : (ns.name id).kind with
  | func => cases marked : (ns.name id).declaredType <;> simp [Name.IsStructured, kind, marked]
  | _ => simp [Name.IsStructured, kind]

end
end Namespace
end NameAudit
