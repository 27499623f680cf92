import NameAudit.Analysis
import NameAudit.Proofs.AddedNames
import NameAudit.Proofs.Assignments

/-!
Qualified names as texts. A text is cut at each of its points, and what it looks up is the name that the pieces spell,
from the root on (`Forest.lookup?_eq_some_iff`). The full name of a name joins its base names by points, so a point
inside a base name, such as that of the key in `a = {'b.c': 1}`, is cut like those between base names. Names whose base
names hold no point are told apart by their full names, and are what their full names look up.
-/
namespace NameAudit

namespace Namespace

/-- The pieces of a text between its points, empty ones included. -/
def cutAtPoints (text : String) : List String := (text.toList.splitOn '.').map String.ofList

/-- No base name on the way down to a name holds a point. -/
def IsPointFree (ns : Namespace) (id : NameId) : Prop := ∀ base ∈ ns.spelling id, '.' ∉ base.toList

/-! ### Pieces of a text -/

theorem segments_eq_splitOn (cs : List Char) : segments cs = cs.splitOn '.' := by
  induction cs with
  | nil => rfl
  | cons c cs ih =>
    have further : (c :: cs).splitOn '.' =
        if c = '.' then [] :: cs.splitOn '.' else (cs.splitOn '.').modifyHead (c :: ·) := by
      simp [List.splitOn_eq_splitOnP, List.splitOnP_cons_eq_if_modifyHead]
    rw [segments, ih, further]
    cases pieces : cs.splitOn '.' with
    | nil => exact absurd pieces (List.splitOn_ne_nil _ _)
    | cons first others => by_cases point : c = '.' <;> simp [point]

theorem cutAtPoints_ne_nil (text : String) : cutAtPoints text ≠ [] := by
  simp [cutAtPoints, List.splitOn_ne_nil]

theorem cutAtPoints_join (first second : String) :
    cutAtPoints (first ++ "." ++ second) = cutAtPoints first ++ cutAtPoints second := by
  have joined : (first ++ "." ++ second).toList = first.toList ++ '.' :: second.toList := by simp
  have pieces : (first.toList ++ '.' :: second.toList).splitOn '.' =
      first.toList.splitOn '.' ++ second.toList.splitOn '.' :=
    List.splitOnP_append_cons _ _ (beq_self_eq_true '.')
  simp only [cutAtPoints, joined, pieces, List.map_append]

/-- Different texts have different pieces. -/
theorem cutAtPoints_injective {first second : String} (same : cutAtPoints first = cutAtPoints second) :
    first = second := by
  have pieces : first.toList.splitOn '.' = second.toList.splitOn '.' :=
    List.map_injective_iff.mpr (fun _ _ equal => String.ofList_injective equal) same
  have texts := congrArg (['.'].intercalate ·) pieces
  simp only [List.intercalate_splitOn] at texts
  exact String.toList_injective texts

theorem cutAtPoints_eq_singleton_iff (base : String) : cutAtPoints base = [base] ↔ '.' ∉ base.toList := by
  constructor
  · intro whole point
    obtain ⟨before, after, split⟩ := List.append_of_mem point
    have joined : base = String.ofList before ++ "." ++ String.ofList after := by
      apply String.toList_injective
      simp [split]
    have someBefore := List.length_pos_iff.mpr (cutAtPoints_ne_nil (String.ofList before))
    have someAfter := List.length_pos_iff.mpr (cutAtPoints_ne_nil (String.ofList after))
    have lengths := congrArg List.length whole
    rw [joined, cutAtPoints_join, List.length_append, List.length_singleton] at lengths
    omega
  · intro free
    have whole : base.toList.splitOn '.' = [base.toList] := by
      have alone : (['.'].intercalate [base.toList]).splitOn '.' = [base.toList] :=
        List.splitOn_intercalate '.' (by simpa using free) (by simp)
      simpa using alone
    rw [cutAtPoints, whole, List.map_singleton, String.ofList_toList]

theorem flatMap_cutAtPoints_eq_self_iff (bases : List String) :
    bases.flatMap cutAtPoints = bases ↔ ∀ base ∈ bases, '.' ∉ base.toList := by
  -- Each base name has a piece at least, so none can have two.
  have enough : ∀ bases : List String, bases.length ≤ (bases.flatMap cutAtPoints).length := by
    intro bases
    induction bases with
    | nil => simp
    | cons base bases ih =>
      have positive := List.length_pos_iff.mpr (cutAtPoints_ne_nil base)
      simp only [List.flatMap_cons, List.length_append, List.length_cons]
      omega
  induction bases with
  | nil => simp
  | cons base bases ih =>
    rw [List.flatMap_cons, List.forall_mem_cons, ← cutAtPoints_eq_singleton_iff]
    constructor
    · intro same
      have rest := enough bases
      have lengths := congrArg List.length same
      have positive := List.length_pos_iff.mpr (cutAtPoints_ne_nil base)
      simp only [List.length_append, List.length_cons] at lengths
      have one : (cutAtPoints base).length = 1 := by omega
      have aligned : cutAtPoints base ++ bases.flatMap cutAtPoints = [base] ++ bases := same
      obtain ⟨whole, others⟩ := List.append_inj aligned one
      exact ⟨whole, ih.mp others⟩
    · rintro ⟨whole, free⟩
      rw [whole, ih.mpr free, List.singleton_append]

section
variable {ns : Namespace} {a id p : NameId} {bases : List String}

/-! ### Looking up a text -/

theorem Leads.child_below (leads : ns.Leads a bases p) (has : ns.Has id)
    (below : (ns.name id).parent = some p) : ns.Leads a (bases ++ [(ns.name id).baseName]) id := by
  induction leads with
  | here p => exact .child has below (.here id)
  | child hasChild parent further ih => exact .child hasChild parent (ih below)

/-- Some base names lead down to a name from its root. -/
theorem Forest.leads_from_rootOf (forest : ns.Forest) (has : ns.Has id) :
    ∃ bases, ns.Leads (ns.rootOf id) bases id := by
  induction id using forest.inductionUp with
  | root id none =>
    rw [← forest.eq_rootOf (self_mem_selfAndAncestors id) none]
    exact ⟨[], .here id⟩
  | child id p below ih =>
    obtain ⟨bases, leads⟩ := ih (forest.has_parent has below)
    rw [forest.rootOf_of_child below]
    exact ⟨_, leads.child_below has below⟩

/-- A text looks up the name that its pieces spell, and no other. -/
theorem Forest.lookup?_eq_some_iff (forest : ns.Forest) (text : String) (id : NameId) :
    ns.lookup? text = some id ↔ Spelled ns id (cutAtPoints text) := by
  have cut : (segments text.toList).map String.ofList = cutAtPoints text := by
    rw [segments_eq_splitOn]
    rfl
  rw [lookup?, cut]
  cases pieces : cutAtPoints text with
  | nil => exact absurd pieces (cutAtPoints_ne_nil text)
  | cons base bases =>
    constructor
    · intro found
      cases first : ns.root? base with
      | none => simp [first] at found
      | some r =>
        simp only [first] at found
        obtain ⟨has, root, rfl⟩ := (forest.root?_eq_some_iff r base).mp first
        have leads := forest.descend?_eq_some_iff.mp found
        refine ⟨leads.has_end has, ?_⟩
        rw [leads.spelling forest, spelling_of_root root, List.singleton_append]
    · rintro ⟨has, spelling⟩
      obtain ⟨passed, root⟩ := forest.rootOf_spec id
      obtain ⟨below, leads⟩ := forest.leads_from_rootOf has
      rw [leads.spelling forest, spelling_of_root root, List.singleton_append] at spelling
      obtain ⟨same, rfl⟩ := List.cons.inj spelling
      have hasRoot := forest.has_of_mem_selfAndAncestors id _ has passed
      have first := (forest.root?_eq_some_iff (ns.rootOf id) base).mpr ⟨hasRoot, root, same⟩
      simp only [first, forest.descend?_eq_some_iff.mpr leads]

/-! ### Full names -/

/-- The pieces of a full name are those of the base names. -/
theorem Forest.cutAtPoints_fullName (forest : ns.Forest) (has : ns.Has id) :
    cutAtPoints (ns.name id).fullName = (ns.spelling id).flatMap cutAtPoints := by
  induction id using forest.inductionUp with
  | root id none =>
    rw [forest.fullName_eq id has, none, spelling_of_root none]
    simp [fullNameBelow]
  | child id p below ih =>
    rw [forest.fullName_eq id has, below, forest.spelling_of_child below, List.flatMap_append,
      ← ih (forest.has_parent has below)]
    simp [fullNameBelow, cutAtPoints_join]

theorem Forest.fullName_eq_iff (forest : ns.Forest) {c d : NameId} (hasC : ns.Has c) (hasD : ns.Has d) :
    (ns.name c).fullName = (ns.name d).fullName ↔
      (ns.spelling c).flatMap cutAtPoints = (ns.spelling d).flatMap cutAtPoints := by
  rw [← forest.cutAtPoints_fullName hasC, ← forest.cutAtPoints_fullName hasD]
  exact ⟨congrArg cutAtPoints, cutAtPoints_injective⟩

theorem Forest.eq_of_fullName (forest : ns.Forest) {c d : NameId} (hasC : ns.Has c) (hasD : ns.Has d)
    (freeC : ns.IsPointFree c) (freeD : ns.IsPointFree d)
    (same : (ns.name c).fullName = (ns.name d).fullName) : c = d := by
  have pieces := (forest.fullName_eq_iff hasC hasD).mp same
  rw [(flatMap_cutAtPoints_eq_self_iff _).mpr freeC, (flatMap_cutAtPoints_eq_self_iff _).mpr freeD] at pieces
  exact forest.eq_of_spelled ⟨hasC, pieces⟩ ⟨hasD, rfl⟩

/-- A name is what its full name looks up exactly if its base names hold no point. -/
theorem Forest.lookup?_fullName_eq_some_iff (forest : ns.Forest) (has : ns.Has id) :
    ns.lookup? (ns.name id).fullName = some id ↔ ns.IsPointFree id := by
  rw [forest.lookup?_eq_some_iff, forest.cutAtPoints_fullName has, IsPointFree,
    ← flatMap_cutAtPoints_eq_self_iff]
  exact ⟨fun spelled => spelled.spelling.symm, fun same => ⟨has, same.symm⟩⟩

/-- What is above a name has a shorter full name. -/
theorem Forest.length_fullName_lt (forest : ns.Forest) (has : ns.Has id) (above : a ∈ ns.ancestors id) :
    (ns.name a).fullName.length < (ns.name id).fullName.length := by
  induction id using forest.inductionUp with
  | root id none =>
    rw [ancestors_of_root none] at above
    cases above
  | child id p below ih =>
    have longer : (ns.name p).fullName.length < (ns.name id).fullName.length := by
      rw [forest.fullName_eq id has, below]
      simp only [fullNameBelow, String.length_append]
      have point : ".".length = 1 := rfl
      omega
    rw [forest.ancestors_of_child below, selfAndAncestors_eq] at above
    rcases List.mem_cons.mp above with rfl | higher
    · exact longer
    · exact Nat.lt_trans (ih (forest.has_parent has below) higher) longer

/-- A name with a failure on its way up exists. -/
theorem IsOutermostFailure.has {u : NameId} (failure : ns.IsOutermostFailure id u) : ns.Has id := by
  by_contra absent
  have root : (ns.name id).parent = none := by
    rw [name_of_not_has ns absent]
    rfl
  have passed := failure.passed
  rw [selfAndAncestors_of_root root, List.mem_singleton] at passed
  exact failure.parent_ne_none (passed ▸ root)

/-- The full name that is reported tells whether the name is the one that is referred to. -/
theorem IsOutermostFailure.fullName_eq_iff {u : NameId} (failure : ns.IsOutermostFailure id u)
    (forest : ns.Forest) : (ns.name id).fullName = (ns.name u).fullName ↔ u = id := by
  constructor
  · intro same
    have passed := failure.passed
    rw [selfAndAncestors_eq] at passed
    rcases List.mem_cons.mp passed with here | above
    · exact here
    · have shorter := forest.length_fullName_lt failure.has above
      rw [same] at shorter
      exact absurd shorter (Nat.lt_irrefl _)
  · rintro rfl
    rfl

end

/-- In the namespace of a program, a text looks up exactly the name whose base names, from the root on, are the pieces
    of the text, and there is at most one such name. -/
theorem ofProgram_lookup_spells (p : Program) (text : String) :
    (∀ id, (ofProgram p).lookup? text = some id ↔
      (ofProgram p).Has id ∧ (ofProgram p).spelling id = cutAtPoints text) ∧
    ∀ c d, Spelled (ofProgram p) c (cutAtPoints text) → Spelled (ofProgram p) d (cutAtPoints text) →
      c = d := by
  have forest := ofProgram_forest p
  refine ⟨fun id => ?_, fun c d first second => forest.eq_of_spelled first second⟩
  rw [forest.lookup?_eq_some_iff]
  exact ⟨fun spelled => ⟨spelled.has, spelled.spelling⟩, fun ⟨has, spelling⟩ => ⟨has, spelling⟩⟩

end Namespace

namespace Analysis

/-- How far a full name identifies a name of an audit. -/
structure Identifies (a : Analysis) : Prop where
  /-- Full names are the same exactly if the base names are cut into the same pieces. -/
  fullName_eq_iff : ∀ c d, a.space.Has c → a.space.Has d →
    ((a.space.name c).fullName = (a.space.name d).fullName ↔
      (a.space.spelling c).flatMap Namespace.cutAtPoints =
        (a.space.spelling d).flatMap Namespace.cutAtPoints)
  unique : ∀ c d, a.space.Has c → a.space.Has d → a.space.IsPointFree c → a.space.IsPointFree d →
    (a.space.name c).fullName = (a.space.name d).fullName → c = d
  lookup? : ∀ id, a.space.Has id →
    (a.space.lookup? (a.space.name id).fullName = some id ↔ a.space.IsPointFree id)
  /-- A label says so exactly if the name that is reported is not the one that is referred to. -/
  label : ∀ f ∈ a.findings, f.problem = .undefined → ∀ severity,
    ∃ u, a.space.IsOutermostFailure (a.space.ref f.reference).name u ∧
      f.name = (a.space.name u).fullName ∧
      ((a.diagnostic f severity).labels = [] ↔ u = (a.space.ref f.reference).name)

theorem labels_undefinedDiagnostic {base : Diagnostic} (unlabelled : base.labels = [])
    (name referenced : String) :
    (undefinedDiagnostic base name referenced).labels = [] ↔ referenced = name := by
  rw [undefinedDiagnostic]
  by_cases same : referenced = name <;> simp [same, unlabelled, Diagnostic.withLabel]

/-- Names without points in their base names are told apart by their full names, in messages and labels and where a
    full name is looked up. -/
theorem run_identifies (p : Program) (levels : Levels) : (run p levels).Identifies where
  fullName_eq_iff _ _ hasC hasD := (Namespace.ofProgram_forest p).fullName_eq_iff hasC hasD
  unique _ _ hasC hasD freeC freeD same :=
    (Namespace.ofProgram_forest p).eq_of_fullName hasC hasD freeC freeD same
  lookup? _ has := (Namespace.ofProgram_forest p).lookup?_fullName_eq_some_iff has
  label f member undefined severity := by
    have forest := Namespace.ofProgram_forest p
    obtain ⟨u, failure, same⟩ := Namespace.exists_failure_of_undefined forest
      (Namespace.ofProgram_tallied p) member undefined
    refine ⟨u, failure, same, ?_⟩
    rw [diagnostic, undefined, labels_undefinedDiagnostic rfl, same]
    exact failure.fullName_eq_iff forest

/-- In `var a = {'b.c': 1, b: {c: 2}};`, the key and the member of the member are both called `a.b.c`. -/
theorem fullName_shared_with_key : ∃ (p : Program) (levels : Levels) (c d : NameId),
    let ns := (run p levels).space
    c ≠ d ∧ ns.Has c ∧ ns.Has d ∧ ns.spelling c = ["a", "b.c"] ∧ ns.spelling d = ["a", "b", "c"] ∧
      (ns.name c).fullName = "a.b.c" ∧ (ns.name d).fullName = "a.b.c" ∧ ns.lookup? "a.b.c" = some d := by
  let number (span : Span) (text : String) : PropertyValue := .value (some (.literal span (.number text)))
  let inner : Expr := .object ⟨22, 28⟩ [.property ⟨23, 27⟩ (.direct "c") (number ⟨26, 27⟩ "2")]
  let outer : Expr := .object ⟨8, 29⟩
    [.property ⟨9, 17⟩ (.direct "b.c") (number ⟨16, 17⟩ "1"),
      .property ⟨19, 28⟩ (.direct "b") (.value (some inner))]
  let body : List Stmt := [.mk ⟨0, 30⟩ none (.vars .var [.mk (.ident ⟨4, 5⟩ "a") (some outer)])]
  exact ⟨.ofStatements body, default, ⟨1⟩, ⟨3⟩, by decide, by decide +kernel, by decide +kernel,
    by decide +kernel, by decide +kernel, by decide +kernel, by decide +kernel, by decide +kernel⟩

end Analysis
end NameAudit
