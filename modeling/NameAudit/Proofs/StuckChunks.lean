import NameAudit.Proofs.BuiltGraphs

/-!
The chunks that are named when there is no loading order. When no chunk can be loaded any more, those that
are left are the ones that lead to a cycle (`Loads.not_loaded_iff`): chunks on a cycle, and chunks that
only depend on one. Both kinds are named, each once, as they were declared.
-/
namespace NameAudit.ChunkGraph

/-- A chunk depends on itself through one or more declared dependencies. -/
def OnCycle (declarations : List ChunkDeclaration) (c : ChunkId) : Prop :=
  Relation.TransGen (Declares declarations) c c

/-- A chunk lies on a cycle or depends, directly or not, on one that does. -/
def LeadsToCycle (declarations : List ChunkDeclaration) (c : ChunkId) : Prop :=
  ∃ d, Relation.ReflTransGen (Declares declarations) c d ∧ OnCycle declarations d

/-- What holds of the names that are reported for a cycle. -/
structure ReportsCycle (declarations : List ChunkDeclaration) (names : List String) : Prop where
  notEmpty : names ≠ []
  nodup : names.Nodup
  inOrder : names.Sublist (declarations.map (·.name))
  mem_iff : ∀ c d, declarations[c.index]? = some d → (d.name ∈ names ↔ LeadsToCycle declarations c)
  /-- Only chunks on cycles are named exactly if no other chunk depends on one of them. -/
  onCycle_iff : (∀ c d, declarations[c.index]? = some d → d.name ∈ names → OnCycle declarations c) ↔
    ∀ c, LeadsToCycle declarations c → OnCycle declarations c

section
variable {declarations : List ChunkDeclaration} {chunks : List Chunk} {s : Loading}

/-! ### What is left -/

/-- When no chunk can be loaded, those that are not loaded are those that lead to a cycle. -/
theorem Loads.not_loaded_iff (loads : Loads chunks s)
    (known : ∀ a b, Needs chunks a b → b.index < chunks.length) (none : s.next? chunks = none)
    {c : ChunkId} (inside : c.index < chunks.length) :
    c ∉ s.loaded ↔
      ∃ d, Relation.ReflTransGen (Needs chunks) c d ∧ Relation.TransGen (Needs chunks) d d := by
  constructor
  · intro absent
    exact loads.leads_to_cycle known none inside absent
  · rintro ⟨d, reaches, cycle⟩ loaded
    -- All that a loaded chunk needs is loaded before it, but a chunk on a cycle needs itself.
    have there : d ∈ s.loaded := by
      rcases Relation.reflTransGen_iff_eq_or_transGen.mp reaches with rfl | requires
      · exact loaded
      · exact (loads.idxOf_lt loaded requires).1
    exact Nat.lt_irrefl _ (loads.idxOf_lt there cycle).2

/-- Looking up all places of a list gives the list. -/
theorem filterMap_getElem? {α : Type} (l : List α) :
    (List.range l.length).filterMap (fun i => l[i]?) = l := by
  induction l with
  | nil => rfl
  | cons x l ih => simp [List.range_succ_eq_map, List.filterMap_map, ih]

/-- The names of what is left are listed as the chunks are. -/
theorem stuck_sublist (chunks : List Chunk) (s : Loading) :
    (s.stuck chunks).Sublist (chunks.map (·.name)) := by
  have all : (ids chunks).filterMap (fun c => (chunks[c.index]?).map (·.name)) =
      chunks.map (·.name) := by
    simpa [ids, List.filterMap_map, Function.comp_def] using filterMap_getElem? (chunks.map (·.name))
  have some : s.stuck chunks = ((ids chunks).filter fun c => !s.loaded.contains c).filterMap
      fun c => (chunks[c.index]?).map (·.name) := by
    rw [List.filterMap_filter]
    apply List.filterMap_congr
    intro c _
    cases s.loaded.contains c <;> simp
  rw [some, ← all]
  exact List.filter_sublist.filterMap _

theorem mem_stuck {text : String} :
    text ∈ s.stuck chunks ↔ ∃ c chunk, chunks[c.index]? = some chunk ∧ c ∉ s.loaded ∧
      chunk.name = text := by
  simp only [Loading.stuck, List.mem_filterMap]
  constructor
  · rintro ⟨c, -, named⟩
    by_cases loaded : c ∈ s.loaded
    · simp [loaded] at named
    · obtain ⟨chunk, found, same⟩ : ∃ chunk, chunks[c.index]? = some chunk ∧ chunk.name = text := by
        simpa [loaded] using named
      exact ⟨c, chunk, found, loaded, same⟩
  · rintro ⟨c, chunk, found, absent, rfl⟩
    have inside := (List.getElem?_eq_some_iff.mp found).1
    exact ⟨c, mem_ids.mpr inside, by simp [found, absent]⟩

/-- Among chunks with distinct names, a name tells whether its chunk is left. -/
theorem name_mem_stuck_iff (nodup : (chunks.map (·.name)).Nodup) {c : ChunkId} {chunk : Chunk}
    (found : chunks[c.index]? = some chunk) : chunk.name ∈ s.stuck chunks ↔ c ∉ s.loaded := by
  rw [mem_stuck]
  constructor
  · rintro ⟨d, other, there, absent, sameName⟩
    have inside := (List.getElem?_eq_some_iff.mp found).1
    have same : c.index = d.index := by
      refine (List.getElem?_inj (by simpa using inside) nodup).mp ?_
      simp [found, there, sameName]
    obtain rfl : c = d := congrArg ChunkId.mk same
    exact absent
  · intro absent
    exact ⟨c, chunk, found, absent, rfl⟩

/-! ### What is named -/

/-- The steps up to a cycle that is reported. -/
theorem build_eq_cycle {names : List String} (failed : build declarations = .error (.cycle names)) :
    (declarations.map (·.name)).Nodup ∧
      ∃ chunks, resolveAll (declarations.map (·.name)) declarations = .ok chunks ∧
        schedule chunks chunks.length (Loading.start chunks) = .error names := by
  rcases build_cases declarations with ⟨answer, _⟩ | ⟨_, answer, _⟩ | ⟨_, _, answer, _⟩ |
    ⟨stuck, answer, nodup, known, cycle⟩ | ⟨_, answer, _⟩ <;> cases answer.symm.trans failed
  refine ⟨nodup, ?_⟩
  cases resolved : resolveAll (declarations.map (·.name)) declarations with
  | error e =>
    obtain ⟨_, _, -, first⟩ := (resolveAll_eq_error_iff e).mp resolved
    exact absurd known first.not_known
  | ok chunks =>
    refine ⟨chunks, rfl, ?_⟩
    have some : declarations ≠ [] := fun empty => not_hasCycle_nil (empty ▸ cycle)
    have answer' := (build_of_resolved some nodup resolved).symm.trans failed
    cases scheduled : schedule chunks chunks.length (Loading.start chunks) with
    | error stuck =>
      rw [scheduled] at answer'
      simpa using answer'
    | ok order =>
      rw [scheduled] at answer'
      cases answer'

theorem LeadsToCycle.index_lt {c : ChunkId} (leads : LeadsToCycle declarations c) :
    c.index < declarations.length := by
  obtain ⟨d, reaches, cycle⟩ := leads
  obtain ⟨b, declares, -⟩ :=
    Relation.TransGen.head'_iff.mp (Relation.TransGen.trans_right reaches cycle)
  exact declares.index_lt.1

end

/-- When a cycle is reported, the names are those of all chunks that lead to a cycle, each once and in the
    order of the declarations. -/
theorem build_reports_cycle {declarations : List ChunkDeclaration} {names : List String}
    (failed : build declarations = .error (.cycle names)) : ReportsCycle declarations names := by
  obtain ⟨nodup, chunks, resolved, scheduled⟩ := build_eq_cycle failed
  obtain ⟨last, loads, none, rfl, shorter⟩ := schedule_eq_error .start scheduled
  have sizes := length_of_resolved resolved
  have sameNames := (resolveAll_eq_ok resolved).1
  have same := needs_eq_declares nodup resolved
  have known : ∀ a b, Needs chunks a b → b.index < chunks.length := by
    intro a b needed
    rw [same] at needed
    exact sizes ▸ needed.index_lt.2
  have member : ∀ c d, declarations[c.index]? = some d →
      (d.name ∈ last.stuck chunks ↔ LeadsToCycle declarations c) := by
    intro c d declared
    obtain ⟨chunk, found, named⟩ : ∃ chunk, chunks[c.index]? = some chunk ∧ chunk.name = d.name := by
      have equal := congrArg (fun names : List String => names[c.index]?) sameNames
      simpa [declared] using equal
    have inside := (List.getElem?_eq_some_iff.mp found).1
    rw [← named, name_mem_stuck_iff (sameNames ▸ nodup) found, loads.not_loaded_iff known none inside,
      LeadsToCycle, same]
    rfl
  constructor
  case notEmpty =>
    have unfinished : last.loaded.length < chunks.length := by simpa [Loading.start] using shorter
    obtain ⟨c, inside, absent⟩ := exists_not_loaded unfinished
    have found : chunks[c.index]? = some chunks[c.index] := List.getElem?_eq_getElem inside
    exact List.ne_nil_of_mem ((name_mem_stuck_iff (sameNames ▸ nodup) found).mpr absent)
  case nodup => exact (stuck_sublist chunks last).nodup (sameNames ▸ nodup)
  case inOrder => exact sameNames ▸ stuck_sublist chunks last
  case mem_iff => exact member
  case onCycle_iff =>
    constructor
    · intro only c leads
      have inside := leads.index_lt
      have declared : declarations[c.index]? = some declarations[c.index] :=
        List.getElem?_eq_getElem inside
      exact only c _ declared ((member c _ declared).mpr leads)
    · intro only c d declared named
      exact only c ((member c d declared).mp named)

/-- Two chunks depend on each other, and a third one on both. The third is named too. -/
theorem build_reports_cycle_behind :
    let declarations : List ChunkDeclaration :=
      [⟨"base", []⟩, ⟨"left", ["right"]⟩, ⟨"right", ["left", "base"]⟩, ⟨"app", ["left", "right"]⟩]
    build declarations = .error (.cycle ["left", "right", "app"]) ∧
      ReportsCycle declarations ["left", "right", "app"] :=
  ⟨rfl, build_reports_cycle rfl⟩

/-- A chunk that depends on itself, and one that depends on it: the second is named, but it lies on no cycle. -/
theorem named_beside_cycle :
    let declarations : List ChunkDeclaration := [⟨"a", ["a"]⟩, ⟨"b", ["a"]⟩]
    build declarations = .error (.cycle ["a", "b"]) ∧ declarations[1]? = some ⟨"b", ["a"]⟩ ∧
      ¬ OnCycle declarations ⟨1⟩ := by
  intro declarations
  refine ⟨rfl, rfl, fun cycle => ?_⟩
  -- The last step of a cycle would be a dependency on the second chunk.
  obtain ⟨c, -, d, e, here, there, depends⟩ := Relation.TransGen.tail'_iff.mp cycle
  obtain rfl : ⟨"b", ["a"]⟩ = e := Option.some.inj there
  have only : ∀ d ∈ declarations, "b" ∉ d.dependencies := by decide
  exact only d (List.mem_of_getElem? here) depends

end NameAudit.ChunkGraph
