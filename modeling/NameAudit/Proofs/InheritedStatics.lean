import NameAudit.Proofs.Assignments

/-!
Static members that a class inherits. What is accepted as a member of a superclass is accepted as a
member of the class, except where the superclass is open and its statics are all the same taken for
known: what is inherited is decided by the members of the superclass that are set, whether or not others
can come from elsewhere.
-/
namespace NameAudit

namespace Namespace

/-- Not all members of a name need be known: some are hidden by a spread or a computed key, or what the
    name or one above it holds can be reached on another path. -/
def IsOpen (ns : Namespace) (id : NameId) : Prop :=
  (ns.name id).hasUnknownMembers = true ∨ ∃ a ∈ ns.selfAndAncestors id, 0 < (ns.name a).aliasingGets

/-- A base name is accepted for a member of a name, whether or not something refers to that member. -/
def Accepts (ns : Namespace) (id : NameId) (base : String) : Prop :=
  ns.hasDefinedChild id base = true ∨ ns.isImpliedMember id base = true

/-- A class extends another, or none of its static members is set. -/
def HasFewStatics (ns : Namespace) (id : NameId) : Prop :=
  (ns.name id).superclass ≠ none ∨ ∀ d ∈ ns.children id, (ns.name d).isDefined = false

section
variable {ns : Namespace} {c s u : NameId} {base : String}

theorem isImpliedMember_of_class (isClass : (ns.name c).kind = .classDef) (base : String) :
    ns.isImpliedMember c base = true ↔ ns.IsOpen c ∨ base = inheritedKey ∨
      ns.isObjectMember base = true ∨ ns.inheritsStatic (ns.name c).superclass base = true := by
  simp only [isImpliedMember, isClass, isAliased, IsOpen, Bool.or_eq_true, List.any_eq_true,
    decide_eq_true_eq, beq_iff_eq, or_assoc, or_left_comm]

theorem IsOpen.accepts (isOpen : ns.IsOpen s) (base : String) : ns.Accepts s base := by
  refine .inr ?_
  simp only [isImpliedMember, Bool.or_eq_true]
  rcases isOpen with hidden | ⟨a, above, aliased⟩
  · exact .inl (.inl (.inl (.inr hidden)))
  · refine .inl (.inl (.inl (.inl ?_)))
    exact List.any_eq_true.mpr ⟨a, above, decide_eq_true aliased⟩

/-- A class with known statics extends nothing, and one of its static members is set. -/
theorem hasKnownStatics_iff (id : NameId) :
    ns.hasKnownStatics id = true ↔ (ns.name id).kind = .classDef ∧
      (ns.name id).superclass = none ∧ ∃ d ∈ ns.children id, (ns.name d).isDefined = true := by
  simp only [hasKnownStatics, Bool.and_eq_true, beq_iff_eq, Option.isNone_iff_eq_none,
    List.any_eq_true, and_assoc]

theorem HasFewStatics.hasKnownStatics_eq_false (few : ns.HasFewStatics s) :
    ns.hasKnownStatics s = false := by
  refine Bool.eq_false_iff.mpr fun known => ?_
  obtain ⟨_, extendsNothing, d, child, defined⟩ := (hasKnownStatics_iff s).mp known
  rcases few with inherits | none
  · exact inherits extendsNothing
  · cases (none d child).symm.trans defined

/-- What is accepted as a member of a superclass is inherited. -/
theorem Accepts.inherited (accepts : ns.Accepts s base)
    (few : ns.IsOpen s → ns.HasFewStatics s) :
    base = inheritedKey ∨ ns.isObjectMember base = true ∨
      ns.inheritsStatic (some (.known s)) base = true := by
  rw [inheritsStatic]
  cases known : ns.hasKnownStatics s with
  | false => exact .inr (.inr rfl)
  | true =>
    rw [if_pos rfl]
    rcases accepts with defined | implied
    · exact .inr (.inr defined)
    · obtain ⟨isClass, extendsNothing, _⟩ := (hasKnownStatics_iff s).mp known
      rcases (isImpliedMember_of_class isClass base).mp implied with isOpen | key | object | static
      · cases (few isOpen).hasKnownStatics_eq_false.symm.trans known
      · exact .inl key
      · exact .inr (.inl object)
      · rw [extendsNothing] at static
        cases static

/-- A static member of a class is accepted if it is accepted as one of the superclass. -/
theorem Accepts.isDefinedProperty (accepts : ns.Accepts s (ns.name u).baseName)
    (few : ns.IsOpen s → ns.HasFewStatics s) (isClass : (ns.name c).kind = .classDef)
    (superclass : (ns.name c).superclass = some (.known s)) (below : (ns.name u).parent = some c) :
    ns.isDefinedProperty u = true := by
  rw [Namespace.isDefinedProperty, below]
  refine Bool.or_eq_true_iff.mpr (.inr ?_)
  rw [isImpliedMember_of_class isClass, superclass]
  exact .inr (accepts.inherited few)

end

/-- A class inherits all static members that are accepted for its superclass, any base name if that is
    open, unless it is open although it extends nothing and one of its static members is set. So no
    reference is reported under a member of the class that would be accepted for the superclass. -/
theorem ofProgram_inherits_statics (p : Program) (graph : ChunkGraph) {c s : NameId}
    (isClass : ((ofProgram p).name c).kind = .classDef)
    (superclass : ((ofProgram p).name c).superclass = some (.known s))
    (few : (ofProgram p).IsOpen s → (ofProgram p).HasFewStatics s) :
    ((ofProgram p).IsOpen s → ∀ base, (ofProgram p).Accepts s base) ∧
      ∀ f ∈ (ofProgram p).findings graph, f.problem = .undefined →
        ∃ u, (ofProgram p).IsOutermostFailure ((ofProgram p).ref f.reference).name u ∧
          f.name = ((ofProgram p).name u).fullName ∧
          (((ofProgram p).name u).parent = some c →
            ¬ (ofProgram p).Accepts s ((ofProgram p).name u).baseName) := by
  refine ⟨IsOpen.accepts, fun f member undefined => ?_⟩
  obtain ⟨u, failure, same⟩ :=
    exists_failure_of_undefined (ofProgram_forest p) (ofProgram_tallied p) member undefined
  refine ⟨u, failure, same, fun below accepts => ?_⟩
  have defined := accepts.isDefinedProperty few isClass superclass below
  cases defined.symm.trans failure.fails

end Namespace

/-- In `class P {} f(P); class C extends P {} C.x(); class Q { static a() {} } Q.y();`, the superclass
    of `C` is open and has no static member that is set, and only `Q.y` is never defined. -/
theorem ofProgram_inherits_statics_passed :
    ∃ (p : Program) (c s : NameId),
      let ns := Namespace.ofProgram p
      (ns.name c).kind = .classDef ∧ (ns.name c).superclass = some (.known s) ∧
      (ns.IsOpen s → ns.HasFewStatics s) ∧ ns.IsOpen s ∧
      ((ns.IsOpen s → ∀ base, ns.Accepts s base) ∧
        ∀ f ∈ ns.findings p.graph, f.problem = .undefined →
          ∃ u, ns.IsOutermostFailure (ns.ref f.reference).name u ∧ f.name = (ns.name u).fullName ∧
            ((ns.name u).parent = some c → ¬ ns.Accepts s (ns.name u).baseName)) ∧
      (ns.name c).baseName = "C" ∧
      (ns.findings p.graph).map (fun f => (f.name, f.problem)) = [("Q.y", .undefined)] := by
  let method : PropertyValue := .method (.mk ⟨62, 68⟩ false false false [] (.block []))
  let body : List Stmt :=
    [.mk ⟨0, 10⟩ none (.classDecl "P" ⟨6, 7⟩ none []),
      .mk ⟨11, 16⟩ none (.expr (.call ⟨11, 15⟩ false (.ident ⟨11, 12⟩ "f")
        [.mk ⟨13, 14⟩ false (.ident ⟨13, 14⟩ "P")])),
      .mk ⟨17, 37⟩ none (.classDecl "C" ⟨23, 24⟩ (some (.ident ⟨33, 34⟩ "P")) []),
      .mk ⟨38, 44⟩ none (.expr (.call ⟨38, 43⟩ false
        (.member ⟨38, 41⟩ false (.ident ⟨38, 39⟩ "C") "x") [])),
      .mk ⟨45, 70⟩ none (.classDecl "Q" ⟨51, 52⟩ none
        [.property ⟨55, 68⟩ true (.direct "a") method]),
      .mk ⟨71, 77⟩ none (.expr (.call ⟨71, 76⟩ false
        (.member ⟨71, 74⟩ false (.ident ⟨71, 72⟩ "Q") "y") []))]
  have few : (Namespace.ofProgram (.ofStatements body)).HasFewStatics ⟨0⟩ :=
    .inr (by decide +kernel)
  have isOpen : (Namespace.ofProgram (.ofStatements body)).IsOpen ⟨0⟩ :=
    .inr ⟨⟨0⟩, Namespace.self_mem_selfAndAncestors _, by decide +kernel⟩
  have isClass : ((Namespace.ofProgram (.ofStatements body)).name ⟨2⟩).kind = .classDef := by
    decide +kernel
  have superclass : ((Namespace.ofProgram (.ofStatements body)).name ⟨2⟩).superclass =
      some (.known ⟨0⟩) := by decide +kernel
  exact ⟨_, ⟨2⟩, ⟨0⟩, isClass, superclass, fun _ => few, isOpen,
    Namespace.ofProgram_inherits_statics _ _ isClass superclass fun _ => few, by decide +kernel,
    by decide +kernel⟩

/-- In `class P { static a() {} static [k]() {} } class C extends P {} C.x();`, any base name is
    accepted for a member of `P`, and `C.x` is reported. -/
theorem uninherited_hidden_static :
    ∃ (p : Program) (c s u : NameId) (f : Finding),
      let ns := Namespace.ofProgram p
      (ns.name c).kind = .classDef ∧ (ns.name s).kind = .classDef ∧
      (ns.name c).superclass = some (.known s) ∧ ns.IsOpen s ∧
      f ∈ ns.findings p.graph ∧ f.problem = .undefined ∧
      f.name = (ns.name u).fullName ∧ (ns.name u).parent = some c := by
  let method : PropertyValue := .method (.mk ⟨17, 23⟩ false false false [] (.block []))
  let body : List Stmt :=
    [.mk ⟨0, 41⟩ none (.classDecl "P" ⟨6, 7⟩ none
        [.property ⟨10, 23⟩ true (.direct "a") method,
          .property ⟨24, 39⟩ true (.computed (.ident ⟨32, 33⟩ "k")) method]),
      .mk ⟨42, 62⟩ none (.classDecl "C" ⟨48, 49⟩ (some (.ident ⟨58, 59⟩ "P")) []),
      .mk ⟨63, 69⟩ none (.expr (.call ⟨63, 68⟩ false
        (.member ⟨63, 66⟩ false (.ident ⟨63, 64⟩ "C") "x") []))]
  have found : (Namespace.ofProgram (.ofStatements body)).findings
      (Program.ofStatements body).graph = [⟨⟨5⟩, "C.x", .undefined⟩] := by decide +kernel
  refine ⟨.ofStatements body, ⟨3⟩, ⟨0⟩, ⟨4⟩, ⟨⟨5⟩, "C.x", .undefined⟩, by decide +kernel,
    by decide +kernel, by decide +kernel, .inl (by decide +kernel), ?_, rfl, by decide +kernel,
    by decide +kernel⟩
  rw [found]
  exact List.mem_cons_self

end NameAudit
