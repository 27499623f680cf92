import NameAudit.Analysis
import NameAudit.Proofs.CheckedReferences

/-!
The order of the problems of a program. They are listed by the evaluation of their references, and
those of one reference by their kinds, with no two of one kind (`run_findings_listed`).
-/
namespace NameAudit

theorem ProblemKind.eq_of_rank {k l : ProblemKind} (same : k.rank = l.rank) : k = l := by
  cases k <;> cases l <;> first | rfl | cases same

namespace Namespace

/-- A problem comes before another: by the order of evaluation, and for one reference by the kind. -/
def Precedes (ns : Namespace) (f g : Finding) : Prop :=
  (ns.ref f.reference).position.order < (ns.ref g.reference).position.order ∨
    (ns.ref f.reference).position.order = (ns.ref g.reference).position.order ∧
      f.problem.kind.rank < g.problem.kind.rank

/-- A list of problems as a reader finds it. -/
structure Listed (ns : Namespace) (findings : List Finding) : Prop where
  increasing : findings.Pairwise ns.Precedes
  once : (findings.map fun f => (f.reference, f.problem.kind)).Nodup
  /-- Only some kinds of problem go together. -/
  kinds : ∀ i, (findings.filter fun f => f.reference = i).map (·.problem.kind) ∈ kindsTogether
  checked : ∀ f ∈ findings, ns.IsChecked f.reference

section
variable {ns : Namespace}

theorem kinds_findingsOn (forest : ns.Forest) (tallied : ns.Tallied) (graph : ChunkGraph)
    (i : RefId) : (ns.findingsOn graph i).map (·.problem.kind) ∈ kindsTogether := by
  by_cases checked : ns.IsChecked i
  · rw [checked.findingsOn_eq forest tallied]
    exact ns.kinds_findingsAt graph _ _ _
  · rw [findingsOn_of_not_checked checked forest tallied]
    exact List.mem_cons_self

theorem findingsOn_increasing (forest : ns.Forest) (tallied : ns.Tallied) (graph : ChunkGraph)
    (i : RefId) :
    (ns.findingsOn graph i).Pairwise fun f g => f.problem.kind.rank < g.problem.kind.rank := by
  by_cases checked : ns.IsChecked i
  · rw [checked.findingsOn_eq forest tallied]
    exact ns.findingsAt_increasing graph _ _ _
  · rw [findingsOn_of_not_checked checked forest tallied]
    exact List.Pairwise.nil

/-- The list is sorted, and where two problems are about one reference their kinds differ. -/
theorem findings_increasing (forest : ns.Forest) (tallied : ns.Tallied) (graph : ChunkGraph) :
    (ns.findings graph).Pairwise ns.Precedes := by
  rw [List.pairwise_iff_forall_sublist]
  intro f g both
  have before := List.pairwise_iff_forall_sublist.mp (ns.findings_sorted graph) both
  rcases (listedBefore_iff f g).mp before with earlier | ⟨same, _⟩
  · exact .inl earlier
  · have memberF : f ∈ ns.findings graph := both.subset List.mem_cons_self
    have memberG : g ∈ ns.findings graph := both.subset (by simp)
    have hasF := (isChecked_of_mem_findings forest tallied memberF).has
    have hasG := (isChecked_of_mem_findings forest tallied memberG).has
    have here : g.reference = f.reference := by
      rw [tallied.order_eq _ hasF, tallied.order_eq _ hasG] at same
      exact RefId.ext same.symm
    have bothHere : [f, g].Sublist (ns.findingsOn graph f.reference) := by
      have kept := both.filter fun h : Finding => h.reference = f.reference
      simpa [findingsOn, here] using kept
    have increasing := findingsOn_increasing forest tallied graph f.reference
    exact .inr ⟨same, List.pairwise_iff_forall_sublist.mp increasing bothHere⟩

theorem nodup_of_precedes {findings : List Finding} (increasing : findings.Pairwise ns.Precedes) :
    (findings.map fun f => (f.reference, f.problem.kind)).Nodup := by
  refine List.pairwise_map.mpr (increasing.imp fun {f g} before same => ?_)
  obtain ⟨reference, kind⟩ := Prod.mk.inj same
  rw [Precedes, reference, kind] at before
  omega

/-- Problems that come before each other are about one reference, and then of one kind. -/
theorem eq_of_listedBefore (forest : ns.Forest) (tallied : ns.Tallied) {graph : ChunkGraph}
    {f g : Finding} (memberF : f ∈ ns.findings graph) (memberG : g ∈ ns.findings graph)
    (before : ns.listedBefore f g = true) (after : ns.listedBefore g f = true) : f = g := by
  have hasF := (isChecked_of_mem_findings forest tallied memberF).has
  have hasG := (isChecked_of_mem_findings forest tallied memberG).has
  have orders := (listedBefore_iff f g).mp before
  have back := (listedBefore_iff g f).mp after
  rw [tallied.order_eq _ hasF, tallied.order_eq _ hasG] at orders back
  have reference : f.reference = g.reference := RefId.ext (by omega)
  have kind : f.problem.kind = g.problem.kind := ProblemKind.eq_of_rank (by omega)
  have once := nodup_of_precedes (findings_increasing forest tallied graph)
  exact List.inj_on_of_nodup_map once memberF memberG (Prod.ext reference kind)

/-- Some of the problems are listed in one way only. -/
theorem eq_of_perm_findings (forest : ns.Forest) (tallied : ns.Tallied) {graph : ChunkGraph}
    {found listed : List Finding} (some : found.Sublist (ns.findings graph))
    (perm : found.Perm listed) (sorted : listed.Pairwise fun f g => ns.listedBefore f g = true) :
    found = listed := by
  refine perm.eq_of_pairwise (fun f g memberF memberG before after => ?_)
    ((ns.findings_sorted graph).sublist some) sorted
  exact eq_of_listedBefore forest tallied (some.subset memberF)
    (some.subset (perm.mem_iff.mpr memberG)) before after

/-- Problems that are found at the same names are listed in the same order. -/
theorem filter_findings_congr (forest : ns.Forest) (tallied : ns.Tallied) {other : Namespace}
    (order : other.listedBefore = ns.listedBefore) {graph graph' : ChunkGraph} {P : Finding → Bool}
    (byName : (other.findingsByName graph').filter P = (ns.findingsByName graph).filter P) :
    (other.findings graph').filter P = (ns.findings graph).filter P := by
  have found := (List.mergeSort_perm (ns.findingsByName graph) ns.listedBefore).filter P
  have listed := (List.mergeSort_perm (other.findingsByName graph') other.listedBefore).filter P
  have sorted := (other.findings_sorted graph').filter P
  rw [order] at sorted
  exact (eq_of_perm_findings forest tallied List.filter_sublist
    (found.trans (byName ▸ listed.symm)) sorted).symm

end

end Namespace

namespace Analysis

/-- The problems of a program are listed by the evaluation of their references and by their kinds,
    each once, and only references to members of checked roots have any. -/
theorem run_findings_listed (p : Program) (levels : Levels) :
    (run p levels).space.Listed (run p levels).findings := by
  have forest := Namespace.ofProgram_forest p
  have tallied := Namespace.ofProgram_tallied p
  have increasing := Namespace.findings_increasing forest tallied p.graph
  refine ⟨increasing, Namespace.nodup_of_precedes increasing, fun i => ?_, fun f member => ?_⟩
  · exact Namespace.kinds_findingsOn forest tallied p.graph i
  · exact Namespace.isChecked_of_mem_findings forest tallied member

end Analysis
end NameAudit
