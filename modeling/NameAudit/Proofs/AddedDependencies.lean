import NameAudit.Proofs.StrictDependencies
import NameAudit.Proofs.FindingOrder
import NameAudit.Proofs.Findings

/-!
Added dependencies between chunks. Which names are undefined does not depend on the chunks. A chunk that
depends on more can only violate fewer dependencies, and what is found late where no dependency is
violated is found late with the added dependencies too.
-/
namespace NameAudit.Namespace

section
variable {ns : Namespace} {g g' : ChunkGraph} {i : RefId}

/-- Which names are undefined does not depend on the chunks. -/
theorem filter_undefined_findingsByName (ns : Namespace) (g g' : ChunkGraph) :
    (ns.findingsByName g').filter (·.problem = .undefined) =
      (ns.findingsByName g).filter (·.problem = .undefined) := by
  simp only [findingsByName, List.filter_flatMap, filter_undefined_findingsAt]

variable (forest : ns.Forest) (tallied : ns.Tallied)
  (loaded : ∀ d, ns.HasRef d → (ns.ref d).position.slot.IsLoaded g)
  (more : ∀ a b, g.dependsOn a b = true → g'.dependsOn a b = true)
include forest tallied loaded more

/-- What violates the dependencies with some added violates them without these. -/
theorem strictDefiner?_of_more {user definer : ChunkId}
    (found : ns.strictDefiner? g' user (ns.ref i).name (ns.ref i) = some definer) :
    ∃ c, ns.strictDefiner? g user (ns.ref i).name (ns.ref i) = some c := by
  obtain ⟨certain, chunks, collected, independent, earliest⟩ :=
    (strictDefiner?_eq_some_iff ..).mp found
  have listed : definer ∈ chunks := List.contains_iff_mem.mp (List.find?_some earliest)
  obtain ⟨d, member, slot⟩ := (mem_of_chunksOf? collected).2 definer listed
  have inOrder : definer ∈ g.order := by
    have isLoaded := loaded d ((mem_definingSets forest tallied i d).mp member).hasRef
    rwa [slot] at isLoaded
  obtain ⟨c, first⟩ : ∃ c, earliest? g chunks = some c :=
    Option.isSome_iff_exists.mp <|
      List.find?_isSome.mpr ⟨definer, inOrder, List.contains_iff_mem.mpr listed⟩
  refine ⟨c, (strictDefiner?_eq_some_iff ..).mpr ⟨certain, chunks, collected, ?_, first⟩⟩
  exact fun e member depends => independent e member (more user e depends)

theorem strictFinding?_of_more {f : Finding}
    (found : ns.strictFinding? g' (ns.ref i).name (ns.ref i) = some f) :
    ∃ e, ns.strictFinding? g (ns.ref i).name (ns.ref i) = some e := by
  unfold strictFinding? at found ⊢
  split at found
  next => cases found
  next user slot =>
    obtain ⟨definer, foundDefiner, _⟩ := Option.map_eq_some_iff.mp found
    obtain ⟨c, first⟩ := strictDefiner?_of_more forest tallied loaded more foundDefiner
    exact ⟨_, Option.map_eq_some_iff.mpr ⟨c, first, rfl⟩⟩

end

/-- Dependencies can be added between the chunks of a program. The undefined names are the same, no
    reference is added that violates a dependency, and what is late stays late. -/
theorem ofProgram_reports_with_more_dependencies (p : Program) {g g' : ChunkGraph}
    (loaded : ∀ i, (ofProgram p).HasRef i → ((ofProgram p).ref i).position.slot.IsLoaded g)
    (more : ∀ a b, g.dependsOn a b = true → g'.dependsOn a b = true) :
    ((ofProgram p).findings g').filter (·.problem = .undefined) =
        ((ofProgram p).findings g).filter (·.problem = .undefined) ∧
      (∀ f ∈ (ofProgram p).findings g', f.problem.kind = .strictDependency →
        ∃ e ∈ (ofProgram p).findings g,
          e.reference = f.reference ∧ e.problem.kind = .strictDependency) ∧
      ∀ f ∈ (ofProgram p).findings g, f.problem.kind = .definedLate →
        f ∈ (ofProgram p).findings g' := by
  have forest := ofProgram_forest p
  have tallied := ofProgram_tallied p
  refine ⟨?_, fun f member strict => ?_, fun f member late => ?_⟩
  · exact filter_findings_congr forest tallied rfl
      (filter_undefined_findingsByName (ofProgram p) g g')
  · have checked := isChecked_of_mem_findings forest tallied member
    have here := mem_filter_isKindAt member strict
    rw [checked.filter_strict forest tallied, Option.mem_toList] at here
    obtain ⟨e, found⟩ := strictFinding?_of_more forest tallied loaded more here
    have listed : e ∈ ((ofProgram p).findings g).filter (isKindAt f.reference .strictDependency) := by
      rw [checked.filter_strict forest tallied]
      exact Option.mem_toList.mpr found
    obtain ⟨memberE, isKind⟩ := List.mem_filter.mp listed
    exact ⟨e, memberE, of_decide_eq_true isKind⟩
  · have checked := isChecked_of_mem_findings forest tallied member
    have here := mem_filter_isKindAt member late
    rw [checked.filter_late forest tallied] at here
    split at here
    next together =>
      obtain ⟨notStrict, mayBeLate⟩ := together
      have notStrict' : (ofProgram p).strictFinding? g' ((ofProgram p).ref f.reference).name
          ((ofProgram p).ref f.reference) = none := by
        refine Option.eq_none_iff_forall_ne_some.mpr fun d found => ?_
        obtain ⟨e, foundE⟩ := strictFinding?_of_more forest tallied loaded more found
        cases notStrict.symm.trans foundE
      refine List.mem_of_mem_filter (p := isKindAt f.reference .definedLate) ?_
      rw [checked.filter_late forest tallied, if_pos ⟨notStrict', mayBeLate⟩]
      exact here
    next => cases here

/-- The first of two chunks has `b.y = 1; var b = {}; var a = {};` and the second `a.x();`. Only where
    the second depends on the first, `a.x` violates no dependency; it is undefined all the same, and
    `b.y` is late. -/
theorem ofProgram_reports_with_more_dependencies_two_chunks :
    ∃ (p : Program) (g : ChunkGraph),
      ChunkGraph.build [⟨"first", []⟩, ⟨"second", []⟩] = .ok p.graph ∧
      ChunkGraph.build [⟨"first", []⟩, ⟨"second", ["first"]⟩] = .ok g ∧
      (∀ i, (ofProgram p).HasRef i → ((ofProgram p).ref i).position.slot.IsLoaded p.graph) ∧
      (∀ a b, p.graph.dependsOn a b = true → g.dependsOn a b = true) ∧
      (((ofProgram p).findings g).filter (·.problem = .undefined) =
          ((ofProgram p).findings p.graph).filter (·.problem = .undefined) ∧
        (∀ f ∈ (ofProgram p).findings g, f.problem.kind = .strictDependency →
          ∃ e ∈ (ofProgram p).findings p.graph,
            e.reference = f.reference ∧ e.problem.kind = .strictDependency) ∧
        ∀ f ∈ (ofProgram p).findings p.graph, f.problem.kind = .definedLate →
          f ∈ (ofProgram p).findings g) ∧
      ((ofProgram p).findings p.graph).map (fun f => (f.name, f.problem.kind)) =
        [("b.y", .definedLate), ("a.x", .undefinedName), ("a.x", .strictDependency)] ∧
      ((ofProgram p).findings g).map (fun f => (f.name, f.problem.kind)) =
        [("b.y", .definedLate), ("a.x", .undefinedName)] := by
  let separate : ChunkGraph := ⟨#[⟨"first", []⟩, ⟨"second", []⟩], [⟨0⟩, ⟨1⟩], #[[⟨0⟩], [⟨1⟩]]⟩
  let linked : ChunkGraph :=
    ⟨#[⟨"first", []⟩, ⟨"second", [⟨0⟩]⟩], [⟨0⟩, ⟨1⟩], #[[⟨0⟩], [⟨1⟩, ⟨0⟩]]⟩
  let first :=
    ((Program.ofGraph separate).addSource ⟨0⟩ "first.js" "b.y = 1; var b = {}; var a = {};").1
  let p := (first.addSource ⟨1⟩ "second.js" "a.x();").1
  have graph : p.graph = separate := by
    rw [Program.graph_addSource, Program.graph_addSource]
    rfl
  have loaded : ∀ i, (ofProgram p).HasRef i →
      ((ofProgram p).ref i).position.slot.IsLoaded p.graph :=
    fun i has => (ofProgram_loads p has).isLoaded
  have more : ∀ a b, p.graph.dependsOn a b = true → linked.dependsOn a b = true := by
    rw [graph]
    rintro ⟨_ | _ | i⟩ b depends
    · exact depends
    · simp_all [separate, linked, ChunkGraph.dependsOn, ChunkGraph.reachOf]
    · simp [separate, ChunkGraph.dependsOn, ChunkGraph.reachOf] at depends
  refine ⟨p, linked, graph ▸ rfl, rfl, loaded, more,
    ofProgram_reports_with_more_dependencies p loaded more, ?_, ?_⟩
  -- Sorting is no recursion that evaluates, but the names are already in the order of evaluation.
  all_goals
    rw [findings, List.mergeSort_of_pairwise (by decide +kernel)]
    decide +kernel

end NameAudit.Namespace
