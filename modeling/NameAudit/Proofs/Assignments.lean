import NameAudit.Proofs.Findings
import NameAudit.Proofs.Visits
import NameAudit.Proofs.WellFormed

/-!
What is assigned is set. `Sets` says of a step that one of the references that it adds sets a name at a
place; it is proved of the steps that assign, and holds of the walk of each node around them. A name
that is set is never what an undefined reference is reported under. Only `=`, patterns and the heads
of loops set their targets: an operator that also reads its target does no more than that.
-/
namespace NameAudit

open Namespace (Grows Extends Spelled)
open Record

/-- An expression is what a node assigns a value to as a whole. -/
def Node.Assigns (target : Expr) : Node → Prop
  | .expr (.assign _ .plain t _) => t = target
  | .pattern (.target t) => t = target
  | .stmt (.mk _ _ (.forEach _ _ (.target t) _ _)) => t = target
  | _ => False

theorem Node.Assigns.isName {target : Expr} {n : Node} (assigns : n.Assigns target) :
    n.isName = false := by
  unfold Node.Assigns at assigns
  split at assigns
  next => rfl
  next => rfl
  next => rfl
  next => exact assigns.elim

/-- A reference at a place sets the name with a spelling. -/
structure Ref.SetsAt (r : Ref) (ns : Namespace) (a : Surroundings) (span : Span)
    (bases : List String) : Prop where
  type : r.type = .set
  stands : r.StandsAt a span
  spelled : Spelled ns r.name bases

/-- The step sets the name with a spelling, at a place. -/
abbrev Record.Sets {α : Type} (a : Surroundings) (ns : Namespace) (m : Record α) (span : Span)
    (bases : List String) : Prop :=
  Logs a ns m fun _ later refs => ∃ r ∈ refs, r.SetsAt later a span bases

/-! ### Steps that set a name -/

namespace Record

section
variable {a : Surroundings} {ns : Namespace} {α β : Type} {m : Record α} {f : α → Record β}
variable {span : Span} {bases : List String}

/-- A step that sets a name, followed by any other. -/
theorem Sets.andThen {P : α → Namespace → Prop}
    (first : Logs a ns m fun x later refs => (∃ r ∈ refs, r.SetsAt later a span bases) ∧ P x later)
    (next : ∀ x later, Grows ns later → P x later → ∃ sites, Walks a later (f x) sites) :
    Sets a ns (m >>= f) span bases := by
  refine Logs.bind first fun x later refs grows forest ⟨⟨r, member, sets⟩, holds⟩ => ?_
  obtain ⟨sites, walks⟩ := next x later grows holds
  refine walks.imp fun _ last more further _ _ => ?_
  exact ⟨r, List.mem_append_left more member, sets.type, sets.stands,
    sets.spelled.extends forest further.extends⟩

theorem Sets.before (first : Sets a ns m span bases)
    (next : ∀ x later, Grows ns later → ∃ sites, Walks a later (f x) sites) :
    Sets a ns (m >>= f) span bases :=
  Sets.andThen (P := fun _ _ => True) (first.imp fun _ _ _ _ _ sets => ⟨sets, trivial⟩)
    fun x later grows _ => next x later grows

/-- A step that sets a name, after any other. -/
theorem Sets.after {sites : List Site} {P : α → Namespace → Prop} (first : Yields a ns m sites P)
    (next : ∀ x later, Grows ns later → Sets a later (f x) span bases) :
    Sets a ns (m >>= f) span bases := by
  refine Logs.bind first fun x later refs grows _ _ => ?_
  refine (next x later grows).imp fun _ _ _ _ _ ⟨r, member, sets⟩ => ?_
  exact ⟨r, List.mem_append_right refs member, sets⟩

/-- A block is no function, so the place of a reference is the same without it. -/
theorem Sets.inBlock {step : Record Unit} {names : List String}
    (sets : Sets (a.inBlock names) ns step span bases) :
    Sets a ns (inBlock names step) span bases :=
  Logs.inScope <| sets.imp fun _ _ _ _ _ ⟨r, member, type, stands, spelled⟩ =>
    ⟨r, member, type, ⟨stands.slot, stands.place, stands.exact, stands.isGlobal⟩, spelled⟩

/-- A set that was made of a path without a prototype. -/
theorem Sets.of_made {path : Path} {refs : List Ref} {exemption : Exemption}
    (made : Made a span exemption
      (fun r => ns.RefersTo r path ∧ ("prototype" ∉ path.members → r.type = .set)) refs)
    (direct : "prototype" ∉ path.members) :
    ∃ r ∈ refs, r.SetsAt ns a span (path.root :: path.members) := by
  obtain ⟨r, rfl, stands, _, refers, type⟩ := made
  rw [Namespace.RefersTo, if_neg direct] at refers
  exact ⟨r, List.mem_singleton_self r, type direct, stands, refers⟩

end
end Record

/-! ### Assigned occurrences -/

section
variable {a : Surroundings} {ns : Namespace} {target : Expr} {o : Occurrence}

theorem Expr.walk_of_occurrence (found : target.occurrence? = some o) (use : Use) :
    target.walk use = useName o.chain target.span use := by
  cases target with
  | ident span name =>
    obtain rfl := Option.some_inj.mp found
    rfl
  | member span isOptional owner name =>
    rw [Expr.walk_member, Expr.chain?_eq, found]
    rfl
  | _ => cases found

theorem Expr.path?_of_occurrence (found : target.occurrence? = some o)
    (certain : o.isConditional = false) : target.path? = some o.path := by
  rw [Expr.path?, Expr.chain?_eq, found]
  simp [Occurrence.chain, certain]

section
variable {path : Path} (isPath : target.path? = some path)
variable (isGlobal : Scope.isGlobal a.scopes path.root = true)
include isPath isGlobal

/-- To write a path is to assign it something that is not known. -/
theorem Expr.write_logs {Q : Namespace → List Ref → Prop}
    (logs : Logs a ns (assignPath path target.span .other) fun _ => Q) :
    Logs a ns (target.walk .write) fun _ => Q := by
  obtain ⟨o, found, certain, rfl⟩ := Expr.path?_eq_some isPath
  rw [Expr.walk_of_occurrence found]
  refine Logs.keep (fun _ => rfl) fun r here => ?_
  rw [isGlobal_answer here]
  change Logs a ns
    (if (o.chain.certain.isNone && Scope.isGlobal a.scopes o.path.root) = true then _ else _) _
  rw [Occurrence.chain_certain_eq_none certain, isGlobal, Option.isNone_none, Bool.and_self,
    if_pos rfl]
  exact logs.returns fun _ _ _ _ _ holds => holds

/-- An assignment to a path sets it before the value is walked. -/
theorem Expr.assign_logs {Q : Unit → Namespace → List Ref → Prop} {span : Span} {value : Expr}
    {use : Use}
    (logs : Logs a ns
      (assignPath path target.span (valueKind value false) >>= fun name =>
        prototypeLiteral path value >>= fun _ => value.walk (.value name)) Q) :
    Logs a ns ((Expr.assign span .plain target value).walk use) Q := by
  refine Logs.keep (globalPath?_keeps target) fun r here => ?_
  rw [globalPath?_answer here isPath isGlobal]
  exact logs

end

variable (found : target.occurrence? = some o) (certain : o.isConditional = false)
variable (direct : "prototype" ∉ o.path.members) (isGlobal : Scope.isGlobal a.scopes o.root = true)
include found certain direct isGlobal

theorem Expr.write_sets : Sets a ns (target.walk .write) target.span (o.root :: o.path.members) :=
  Expr.write_logs (Expr.path?_of_occurrence found certain) isGlobal <|
    (assignPath_logs o.path target.span .other).imp fun _ _ _ _ _ ⟨made, _⟩ =>
      Sets.of_made made direct

theorem Expr.assign_sets (span : Span) (value : Expr) (use : Use) :
    Sets a ns ((Expr.assign span .plain target value).walk use) target.span
      (o.root :: o.path.members) := by
  refine Expr.assign_logs (Expr.path?_of_occurrence found certain) isGlobal ?_
  refine Sets.andThen (P := fun name later => later.Knows name) ?_ fun name later _ known => ?_
  · refine (assignPath_logs o.path target.span (valueKind value false)).imp ?_
    exact fun _ _ _ _ _ ⟨made, spelled⟩ =>
      ⟨Sets.of_made made direct, fun id member => (spelled id member).has⟩
  · have walks := Expr.walk_sites value a later (.value name) known
    exact ⟨_, (prototypeLiteral_walks o.path value).seq walks⟩

/-- A node sets what it assigns. -/
theorem Node.Assigns.sets {n : Node} (assigns : n.Assigns target) (use : Use) :
    Sets a ns (n.walk use) target.span (o.root :: o.path.members) := by
  unfold Node.Assigns at assigns
  split at assigns
  next span t value =>
    subst assigns
    exact Expr.assign_sets found certain direct isGlobal span value use
  next t =>
    subst assigns
    exact Expr.write_sets found certain direct isGlobal
  next span doc isOf isAwait t subject body =>
    subst assigns
    refine Logs.underDoc doc (Logs.markingType _ (Sets.inBlock ?_))
    have inner : Scope.isGlobal (a.inBlock []).scopes o.root = true := isGlobal
    refine Sets.after (Expr.walk_sites subject _ ns (.read .get) ns.knows_none) fun _ last _ => ?_
    exact (Expr.write_sets found certain direct inner).before fun _ space _ =>
      ⟨_, Stmt.walk_sites body _ space⟩
  next => exact assigns.elim

end

/-! ### Names that are set -/

/-- Some reference at a place sets the name with a spelling. -/
def Namespace.SetsAt (ns : Namespace) (a : Surroundings) (span : Span) (bases : List String) : Prop :=
  ∃ i, ns.HasRef i ∧ (ns.ref i).SetsAt ns a span bases

/-- Each undefined reference is reported under a name on its way up that is not spelled so. -/
def Namespace.NeverUndefined (ns : Namespace) (graph : ChunkGraph) (bases : List String) : Prop :=
  ∀ f ∈ ns.findings graph, f.problem = .undefined →
    ∃ u ∈ ns.selfAndAncestors (ns.ref f.reference).name,
      f.name = (ns.name u).fullName ∧ ¬ Spelled ns u bases

theorem Namespace.exists_ref_of_mem {ns : Namespace} {r : Ref} (member : r ∈ ns.refs.toList) :
    ∃ i, ns.HasRef i ∧ ns.ref i = r := by
  rw [← ns.map_ref_refIds] at member
  obtain ⟨i, listed, same⟩ := List.mem_map.mp member
  exact ⟨i, (ns.mem_refIds i).mp listed, same⟩

/-- What is set while a node is walked is set in the whole program. -/
theorem Program.Visits.setsAt {p : Program} {x : Located} {before after : Recording}
    (visits : p.Visits x before after) {span : Span} {bases : List String}
    (sets : ∀ ns use, Sets x.1 ns (x.2.walk use) span bases) :
    (Namespace.ofProgram p).SetsAt x.1 span bases := by
  obtain ⟨use, _, here, rfl⟩ := visits.walked
  obtain ⟨there, _, refs, added, r, member, set⟩ := sets _ use before here (Grows.refl _)
  have kept := List.mem_append_right before.space.refs.toList member
  rw [← added] at kept
  obtain ⟨i, has, rfl⟩ := Namespace.exists_ref_of_mem kept
  obtain ⟨stays, same⟩ := visits.leaves.ref has
  refine ⟨i, stays, ?_⟩
  rw [same]
  exact ⟨set.type, set.stands, set.spelled.extends there.forest visits.leaves.extends⟩

namespace Namespace

section
variable {ns : Namespace} {graph : ChunkGraph} {f : Finding}

/-- An undefined reference is reported under the failing name that is nearest to the root. -/
theorem exists_failure_of_undefined (forest : ns.Forest) (tallied : ns.Tallied)
    (member : f ∈ ns.findings graph) (undefined : f.problem = .undefined) :
    ∃ u, ns.IsOutermostFailure (ns.ref f.reference).name u ∧ f.name = (ns.name u).fullName := by
  have listed : f ∈ (ns.findings graph).filter (isUndefinedAt f.reference) :=
    List.mem_filter.mpr ⟨member, decide_eq_true ⟨rfl, undefined⟩⟩
  by_cases reportable : ns.IsReportable f.reference
  · rw [reportable.filter_findings forest tallied] at listed
    have fails := (isDefinedPath_eq_false_iff _).mpr reportable.fails
    exact ⟨_, forest.firstUndefined_spec fails, congrArg Finding.name (List.mem_singleton.mp listed)⟩
  · rw [filter_findings_of_not_reportable reportable forest tallied] at listed
    cases listed

theorem isDefinedProperty_of_isDefined {id : NameId} (defined : (ns.name id).isDefined = true) :
    ns.isDefinedProperty id = true := by
  unfold isDefinedProperty
  split
  · rfl
  · rw [defined, Bool.true_or]

/-- A name that is set is no name that an undefined reference is reported under. -/
theorem SetsAt.not_spelled_of_fails {a : Surroundings} {span : Span} {bases : List String}
    (sets : ns.SetsAt a span bases) (forest : ns.Forest) (tallied : ns.Tallied) {u : NameId}
    (fails : ns.isDefinedProperty u = false) : ¬ Spelled ns u bases := by
  intro spelled
  obtain ⟨i, has, set⟩ := sets
  have isSet : ns.IsSetOf i u := ⟨has, forest.eq_of_spelled set.spelled spelled, set.type⟩
  rw [isDefinedProperty_of_isDefined ((tallied.isDefined_iff u).mpr ⟨i, isSet⟩)] at fails
  cases fails

end

/-- What `=`, a pattern or the head of a loop assigns is set there, if its root is global and neither
    `?.` nor a prototype is on the way, and no undefined reference is reported under its name. -/
theorem ofProgram_sets_assigned (p : Program) {a : Surroundings} {n : Node}
    (contained : p.Contains (a, n)) {target : Expr} (assigns : n.Assigns target) {o : Occurrence}
    (found : target.occurrence? = some o) (certain : o.isConditional = false)
    (direct : "prototype" ∉ o.path.members) (isGlobal : Scope.isGlobal a.scopes o.root = true) :
    (ofProgram p).SetsAt a target.span (o.root :: o.path.members) ∧
      (ofProgram p).NeverUndefined p.graph (o.root :: o.path.members) := by
  obtain ⟨before, after, visits⟩ := contained.visits assigns.isName
  have sets := visits.setsAt fun _ use => assigns.sets found certain direct isGlobal use
  refine ⟨sets, fun f member undefined => ?_⟩
  have forest := ofProgram_forest p
  have tallied := ofProgram_tallied p
  obtain ⟨u, failure, same⟩ := exists_failure_of_undefined forest tallied member undefined
  exact ⟨u, failure.passed, same, sets.not_spelled_of_fails forest tallied failure.fails⟩

end Namespace

/-- `var ns = {}; ns.a = ns.b;` sets `ns.a`, and only `ns.b` is never defined. -/
theorem ofProgram_sets_assigned_member :
    ∃ (p : Program) (a : Surroundings) (n : Node) (target : Expr) (o : Occurrence),
      p.Contains (a, n) ∧ n.Assigns target ∧ target.occurrence? = some o ∧
      o.isConditional = false ∧ "prototype" ∉ o.path.members ∧
      Scope.isGlobal a.scopes o.root = true ∧
      ((Namespace.ofProgram p).SetsAt a target.span (o.root :: o.path.members) ∧
        (Namespace.ofProgram p).NeverUndefined p.graph (o.root :: o.path.members)) ∧
      ((Namespace.ofProgram p).findings p.graph).map (fun f => (f.name, f.problem)) =
        [("ns.b", .undefined)] := by
  let target : Expr := .member ⟨13, 17⟩ false (.ident ⟨13, 15⟩ "ns") "a"
  let value : Expr := .member ⟨20, 24⟩ false (.ident ⟨20, 22⟩ "ns") "b"
  let declaration : Stmt :=
    .mk ⟨0, 12⟩ none (.vars .var [.mk (.ident ⟨4, 6⟩ "ns") (some (.object ⟨9, 11⟩ []))])
  let statement : Stmt := .mk ⟨13, 25⟩ none (.expr (.assign ⟨13, 24⟩ .plain target value))
  have contained := (Program.contains_ofStatements [declaration, statement]).part
    (List.mem_cons_of_mem _ List.mem_cons_self) |>.part List.mem_cons_self
  exact ⟨_, _, _, target, ⟨"ns", [⟨false, "a"⟩]⟩, contained, rfl, rfl, rfl, by decide, rfl,
    Namespace.ofProgram_sets_assigned _ contained rfl rfl rfl (by decide) rfl, by decide +kernel⟩

/-- In `var ns = {}; ns.a ||= 1;`, the member is only read, and reported as never defined. -/
theorem unset_logical_assignment :
    ∃ (p : Program) (a : Surroundings) (span : Span) (target value : Expr) (o : Occurrence),
      p.Contains (a, .expr (.assign span .logicalOr target value)) ∧
      target.occurrence? = some o ∧ o.isConditional = false ∧ "prototype" ∉ o.path.members ∧
      Scope.isGlobal a.scopes o.root = true ∧
      ¬ (Namespace.ofProgram p).SetsAt a target.span (o.root :: o.path.members) ∧
      ((Namespace.ofProgram p).findings p.graph).map (fun f => (f.name, f.problem)) =
        [("ns.a", .undefined)] := by
  let target : Expr := .member ⟨13, 17⟩ false (.ident ⟨13, 15⟩ "ns") "a"
  let value : Expr := .literal ⟨22, 23⟩ (.number "1")
  let declaration : Stmt :=
    .mk ⟨0, 12⟩ none (.vars .var [.mk (.ident ⟨4, 6⟩ "ns") (some (.object ⟨9, 11⟩ []))])
  let statement : Stmt := .mk ⟨13, 24⟩ none (.expr (.assign ⟨13, 23⟩ .logicalOr target value))
  have contained := (Program.contains_ofStatements [declaration, statement]).part
    (List.mem_cons_of_mem _ List.mem_cons_self) |>.part List.mem_cons_self
  refine ⟨_, _, _, target, value, ⟨"ns", [⟨false, "a"⟩]⟩, contained, rfl, rfl, by decide, rfl, ?_,
    by decide +kernel⟩
  rintro ⟨i, has, sets⟩
  let ns := Namespace.ofProgram (.ofStatements [declaration, statement])
  have onlyRoot : ∀ r ∈ ns.refs.toList, r.type = .set → (ns.name r.name).baseName = "ns" := by
    decide +kernel
  have same := onlyRoot _ (List.mem_of_getElem? (Namespace.getElem?_refs has)) sets.type
  have last := sets.spelled.baseName
  rw [same] at last
  exact absurd last (by decide)

end NameAudit
