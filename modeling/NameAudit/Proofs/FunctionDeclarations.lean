import NameAudit.Proofs.Assignments

/-!
Functions that a list of statements declares are set before the list runs, each at its name. What is
set there a second time would come from another site, as a site sets a root once at most
(`Site.Records.countP_sets_le`). A declaration that is the whole body of a label, a branch or a loop is
in no list, and nothing sets it.
-/
namespace NameAudit

open Namespace (Grows Extends Spelled)

/-! ### The step before a list -/

namespace Record

section
variable {a : Surroundings} {ns : Namespace} {name : String}

theorem declare_sets (isGlobal : Scope.isGlobal a.scopes name = true) (kind : NameKind) (span : Span) :
    Sets a ns (declare name kind span) span [name] := by
  refine (declare_logs name kind span).imp fun _ later refs _ _ recorded => ?_
  rcases recorded with ⟨_, _, r, rfl, stands, _, type, spelled⟩ | ⟨isLocal, _⟩
  · exact ⟨r, List.mem_singleton_self r, type, stands, spelled⟩
  · cases isLocal.symm.trans isGlobal

theorem declareFunctions_sets {ss : List Stmt} {span nameSpan : Span} {doc : Option DocComment}
    {f : Func} (declared : .mk span doc (.funcDecl name nameSpan f) ∈ ss)
    (isGlobal : Scope.isGlobal a.scopes name = true) :
    Sets a ns (declareFunctions ss) nameSpan [name] := by
  induction ss generalizing ns with
  | nil => cases declared
  | cons s ss ih =>
    rcases List.mem_cons.mp declared with rfl | later
    · refine Sets.before ?_ fun _ space _ => ⟨_, declareFunctions_walks ss⟩
      exact Logs.markingType _ <|
        (declare_sets isGlobal .func nameSpan).before fun _ _ _ => ⟨[], pure_walks ()⟩
    · obtain ⟨span', doc', form⟩ := s
      cases form with
      | funcDecl other otherSpan g =>
        exact Sets.after
          (Logs.markingType _ (declare_defines other .func otherSpan).walks.discard)
          fun _ _ _ => ih later
      | _ => exact ih later

end
end Record

/-! ### Sets at one place -/

/-- Where a site stands. -/
def Site.place (s : Site) : Place := ⟨s.around.file, s.span.clamped⟩

/-- A reference sets a name at a place. -/
def Ref.setsNameAt (id : NameId) (place : Place) (r : Ref) : Bool :=
  r.type = .set ∧ r.name = id ∧ r.position.place = place

section
variable {ns : Namespace} {id : NameId} {place : Place}

/-- A reference to a path with members sets no root. -/
theorem not_setsNameAt_of_refersTo (root : (ns.name id).parent = none) {r : Ref} {p : Path}
    (refers : ns.RefersTo r p) (below : p.members ≠ []) : r.setsNameAt id place = false := by
  refine decide_eq_false ?_
  rintro ⟨type, rfl, _⟩
  rw [Namespace.RefersTo] at refers
  split at refers
  next =>
    rw [type] at refers
    cases refers.1
  next =>
    have same := refers.spelling
    rw [Namespace.spelling_of_root root] at same
    exact below (List.cons.inj same).2.symm

/-- A site sets a root once at most, and where it stands. -/
theorem Site.Records.countP_sets_le {s : Site} {refs : List Ref} (records : s.Records ns refs)
    (root : (ns.name id).parent = none) (place : Place) :
    refs.countP (Ref.setsNameAt id place) ≤ if s.place = place then 1 else 0 := by
  by_cases here : s.place = place
  · rw [if_pos here]
    cases s with
    | occurrence a span o =>
      simp only [Site.Records] at records
      split at records
      next =>
        split at records
        next conditional =>
          -- The whole path has a member, so only the part before `?.` can be the root.
          obtain ⟨first, second, rfl, _, _, _, whole, _⟩ := records
          have below : o.path.members ≠ [] := by
            intro none
            rw [Occurrence.path, List.map_eq_nil_iff] at none
            rw [Occurrence.isConditional, none] at conditional
            cases conditional
          rw [List.countP_cons, List.countP_singleton, not_setsNameAt_of_refersTo root whole below,
            if_neg Bool.false_ne_true, Nat.zero_add]
          split <;> omega
        next =>
          obtain ⟨r, rfl, _⟩ := records
          exact List.countP_le_length
      next =>
        rw [records]
        exact Nat.zero_le 1
    | definition a span base =>
      rcases records with rfl | ⟨r, rfl, _⟩
      · exact Nat.zero_le 1
      · exact List.countP_le_length
  · rw [if_neg here, Nat.le_zero, List.countP_eq_zero]
    intro r member set
    have stands := (of_decide_eq_true set).2.2
    exact here ((records.standsAt member).place.symm.trans stands)

theorem Accounts.countP_sets_le {sites : List Site} {refs : List Ref}
    (accounts : Accounts ns sites refs) (root : (ns.name id).parent = none) (place : Place) :
    refs.countP (Ref.setsNameAt id place) ≤ sites.countP (·.place = place) := by
  obtain ⟨parts, recorded, rfl⟩ := accounts
  induction recorded with
  | nil => exact Nat.le_refl 0
  | cons records _ ih =>
    have first := records.countP_sets_le root place
    rw [List.flatten_cons, List.countP_append, List.countP_cons]
    simp only [decide_eq_true_eq]
    omega

end

/-- A reference is the only one at a place that sets the name with a spelling, unless more than one
    site stands there. Whether two sites of a parsed program can share the place of a declared name is left
    open: of the spans of the parser it is shown that they are nested, not that parts side by side are
    apart. -/
def Program.OnlySetAt (p : Program) (place : Place) (bases : List String) (i : RefId) : Prop :=
  let ns := Namespace.ofProgram p
  p.sites.countP (·.place = place) ≤ 1 → ∀ j, ns.HasRef j → (ns.ref j).type = .set →
    Spelled ns (ns.ref j).name bases → (ns.ref j).position.place = place → j = i

namespace Namespace

/-- What is counted once at most is one reference. -/
theorem eq_of_countP_le_one {ns : Namespace} {P : Ref → Bool} (once : ns.refs.toList.countP P ≤ 1)
    {i j : RefId} (hasI : ns.HasRef i) (hasJ : ns.HasRef j) (first : P (ns.ref i) = true)
    (second : P (ns.ref j) = true) : i = j := by
  rw [← length_refsWhere] at once
  have memberI := ((ns.lists_refsWhere P).2 i).mpr ⟨hasI, first⟩
  have memberJ := ((ns.lists_refsWhere P).2 j).mpr ⟨hasJ, second⟩
  cases listed : ns.refsWhere P with
  | nil =>
    rw [listed] at memberI
    cases memberI
  | cons k ks =>
    rw [listed, List.length_cons] at once
    have none : ks = [] := List.length_eq_zero_iff.mp (Nat.le_zero.mp (Nat.le_of_succ_le_succ once))
    rw [listed, none, List.mem_singleton] at memberI memberJ
    exact memberI.trans memberJ.symm

/-- A function that a list of statements declares is set at its name, if the name is global there.
    That is the only set of the name at the place, if nothing else stands there. -/
theorem ofProgram_sets_functions (p : Program) {a : Surroundings} {ss : List Stmt}
    (contained : p.Contains (a, .stmts ss)) {span nameSpan : Span} {doc : Option DocComment}
    {name : String} {f : Func} (declared : .mk span doc (.funcDecl name nameSpan f) ∈ ss)
    (isGlobal : Scope.isGlobal a.scopes name = true) :
    ∃ i, (ofProgram p).HasRef i ∧ ((ofProgram p).ref i).SetsAt (ofProgram p) a nameSpan [name] ∧
      p.OnlySetAt ⟨a.file, nameSpan.clamped⟩ [name] i := by
  obtain ⟨before, after, visits⟩ := contained.visits rfl
  have sets : ∀ ns, Record.Sets a ns (Record.afterFunctions ss (Stmt.walkAll ss)) nameSpan [name] :=
    fun _ => (Record.declareFunctions_sets declared isGlobal).before fun _ space _ =>
      ⟨_, Stmt.walkAll_sites ss a space⟩
  obtain ⟨i, has, set⟩ := visits.setsAt fun ns _ => sets ns
  refine ⟨i, has, set, fun alone j hasJ type spelled place => ?_⟩
  have forest := ofProgram_forest p
  have once := Nat.le_trans ((ofProgram_accounts p).countP_sets_le (set.spelled.isRoot forest)
    ⟨a.file, nameSpan.clamped⟩) alone
  have same := forest.eq_of_spelled spelled set.spelled
  exact eq_of_countP_le_one once hasJ has (decide_eq_true ⟨type, same, place⟩)
    (decide_eq_true ⟨set.type, rfl, set.stands.place⟩)

end Namespace

/-- `f(); function f() {}` sets `f` before it is called, and nothing else stands at its name. -/
theorem ofProgram_sets_functions_late :
    ∃ (p : Program) (a : Surroundings) (ss : List Stmt) (span nameSpan : Span) (f : Func),
      p.Contains (a, .stmts ss) ∧ .mk span none (.funcDecl "f" nameSpan f) ∈ ss ∧
      Scope.isGlobal a.scopes "f" = true ∧
      (∃ i, (Namespace.ofProgram p).HasRef i ∧
        ((Namespace.ofProgram p).ref i).SetsAt (Namespace.ofProgram p) a nameSpan ["f"] ∧
        p.OnlySetAt ⟨a.file, nameSpan.clamped⟩ ["f"] i) ∧
      p.sites.countP (·.place = ⟨a.file, nameSpan.clamped⟩) = 1 ∧
      (Namespace.ofProgram p).refs.toList.map (·.type) = [.set, .call] := by
  let f : Func := .mk ⟨5, 20⟩ false false false [] (.block [])
  let call : Stmt := .mk ⟨0, 4⟩ none (.expr (.call ⟨0, 3⟩ false (.ident ⟨0, 1⟩ "f") []))
  let declaration : Stmt := .mk ⟨5, 20⟩ none (.funcDecl "f" ⟨14, 15⟩ f)
  have contained := Program.contains_ofStatements [call, declaration]
  have declared : declaration ∈ [call, declaration] := List.mem_cons_of_mem _ List.mem_cons_self
  exact ⟨_, _, _, _, _, _, contained, declared, rfl,
    Namespace.ofProgram_sets_functions _ contained declared rfl, by decide +kernel,
    by decide +kernel⟩

/-- In `l: function f() {}`, the declaration is in no list of statements, and nothing is set. -/
theorem unset_labelled_function :
    ∃ (p : Program) (a : Surroundings) (span nameSpan : Span) (f : Func),
      p.Contains (a, .stmt (.mk span none (.funcDecl "f" nameSpan f))) ∧
      Scope.isGlobal a.scopes "f" = true ∧
      ¬ (Namespace.ofProgram p).SetsAt a nameSpan ["f"] := by
  let f : Func := .mk ⟨3, 18⟩ false false false [] (.block [])
  let declaration : Stmt := .mk ⟨3, 18⟩ none (.funcDecl "f" ⟨12, 13⟩ f)
  let label : Stmt := .mk ⟨0, 18⟩ none (.labelled "l" declaration)
  have contained := (Program.contains_ofStatements [label]).part List.mem_cons_self
    |>.part List.mem_cons_self
  refine ⟨_, _, _, _, _, contained, rfl, ?_⟩
  rintro ⟨i, has, _⟩
  have none : (Namespace.ofProgram (.ofStatements [label])).refs.size = 0 := by decide +kernel
  rw [Namespace.HasRef, none] at has
  exact absurd has (Nat.not_lt_zero _)

end NameAudit
