import NameAudit.Proofs.BuiltGraphs

/-!
What two chunks have in common. A graph lists the chunks that both require as they are loaded, and two
chunks are siblings if neither requires the other but the list is not empty. What is listed does not
depend on which of the two comes first, nor on the order in which what a chunk requires is kept
(`Coherent.eq_commonAncestors`): places in the loading order are distinct.
-/
namespace NameAudit.ChunkGraph

/-- A declared chunk is another one or depends on it, directly or not. What is not declared requires
    nothing. -/
def Requires (declarations : List ChunkDeclaration) (a b : ChunkId) : Prop :=
  a.index < declarations.length ∧ Relation.ReflTransGen (Declares declarations) a b

/-- What a graph answers about two chunks, declared or not. -/
structure AnswersPair (declarations : List ChunkDeclaration) (g : ChunkGraph) (a b : ChunkId) :
    Prop where
  inOrder : (g.commonAncestors a b).Sublist g.order
  mem_iff : ∀ c, c ∈ g.commonAncestors a b ↔ Requires declarations a c ∧ Requires declarations b c
  /-- In whatever order the chunks that both require are found, sorting them by rank gives the list. -/
  sorted : ∀ found : List ChunkId, found.Nodup →
    (∀ c, c ∈ found ↔ Requires declarations a c ∧ Requires declarations b c) →
    found.Pairwise (fun c d => g.rank? c ≤ g.rank? d) → found = g.commonAncestors a b
  comm : g.commonAncestors a b = g.commonAncestors b a
  sibling_comm : g.isSibling a b = g.isSibling b a
  sibling_iff : g.isSibling a b = true ↔
    ¬ Requires declarations a b ∧ ¬ Requires declarations b a ∧ g.commonAncestors a b ≠ []
  sibling_self : g.isSibling a a = false
  sibling_required : Requires declarations a b → g.isSibling a b = false ∧ g.isSibling b a = false

section
variable {g : ChunkGraph} {declarations : List ChunkDeclaration}

/-! ### In any graph -/

theorem commonAncestors_comm (g : ChunkGraph) (a b : ChunkId) :
    g.commonAncestors a b = g.commonAncestors b a := by
  unfold commonAncestors
  apply List.filter_congr
  intro c _
  exact Bool.and_comm _ _

theorem isSibling_comm (g : ChunkGraph) (a b : ChunkId) : g.isSibling a b = g.isSibling b a := by
  rw [isSibling, isSibling, commonAncestors_comm, Bool.and_comm (!g.dependsOn a b)]

theorem isSibling_eq_true_iff (a b : ChunkId) :
    g.isSibling a b = true ↔
      g.dependsOn a b = false ∧ g.dependsOn b a = false ∧ g.commonAncestors a b ≠ [] := by
  simp [isSibling, and_assoc]

/-! ### In a graph whose table is that of its dependencies -/

theorem Coherent.mem_commonAncestors (coherent : g.Coherent) {a b c : ChunkId} :
    c ∈ g.commonAncestors a b ↔ g.dependsOn a c = true ∧ g.dependsOn b c = true := by
  simp only [commonAncestors, List.mem_filter, Bool.and_eq_true]
  constructor
  · rintro ⟨-, both⟩
    exact both
  · intro both
    obtain ⟨member, reaches⟩ := (coherent.dependsOn_iff a c).mp both.1
    exact ⟨(coherent.idxOf_le member reaches).1, both⟩

/-- The loading order is sorted by rank. -/
theorem Coherent.order_pairwise (coherent : g.Coherent) :
    g.order.Pairwise fun c d => g.rank? c ≤ g.rank? d := by
  rw [List.pairwise_iff_getElem]
  intro i j insideI insideJ before
  have rank : ∀ k (inside : k < g.order.length), g.rank? g.order[k] = some k := fun k inside =>
    (rank?_eq_some_iff _ k).mpr ⟨List.getElem_mem inside, coherent.nodup.idxOf_getElem k inside⟩
  rw [rank i insideI, rank j insideJ, Option.some_le_some]
  exact Nat.le_of_lt before

/-- Chunks of the same rank are the same. -/
theorem eq_of_rank_le {c d : ChunkId} (memberC : c ∈ g.order) (memberD : d ∈ g.order)
    (notLater : g.rank? c ≤ g.rank? d) (notEarlier : g.rank? d ≤ g.rank? c) : c = d := by
  have rankC := (rank?_eq_some_iff c _).mpr ⟨memberC, rfl⟩
  have rankD := (rank?_eq_some_iff d _).mpr ⟨memberD, rfl⟩
  rw [rankC, rankD, Option.some_le_some] at notLater
  rw [rankC, rankD, Option.some_le_some] at notEarlier
  exact (List.idxOf_inj memberC).mp (Nat.le_antisymm notLater notEarlier)

/-- There is only one way to list the chunks that two chunks depend on by rank. -/
theorem Coherent.eq_commonAncestors (coherent : g.Coherent) {a b : ChunkId} {found : List ChunkId}
    (nodup : found.Nodup)
    (both : ∀ c, c ∈ found ↔ g.dependsOn a c = true ∧ g.dependsOn b c = true)
    (sorted : found.Pairwise fun c d => g.rank? c ≤ g.rank? d) : found = g.commonAncestors a b := by
  have inOrder : (g.commonAncestors a b).Sublist g.order := List.filter_sublist
  have same : ∀ c, c ∈ found ↔ c ∈ g.commonAncestors a b := fun c =>
    (both c).trans coherent.mem_commonAncestors.symm
  have antisymm : ∀ c d, c ∈ found → d ∈ g.commonAncestors a b →
      g.rank? c ≤ g.rank? d → g.rank? d ≤ g.rank? c → c = d := by
    intro c d memberC memberD
    exact eq_of_rank_le (inOrder.mem ((same c).mp memberC)) (inOrder.mem memberD)
  have perm : found.Perm (g.commonAncestors a b) :=
    (List.perm_ext_iff_of_nodup nodup (inOrder.nodup coherent.nodup)).mpr same
  exact perm.eq_of_pairwise antisymm sorted (coherent.order_pairwise.sublist inOrder)

/-! ### In a graph of some declarations -/

/-- The chunks in the order of a graph are those that are declared. -/
theorem mem_order_iff (built : build declarations = .ok g) (c : ChunkId) :
    c ∈ g.order ↔ c.index < declarations.length := by
  rw [(isGraphOf_build built).permutation.mem_iff, List.mem_map]
  constructor
  · rintro ⟨i, inside, rfl⟩
    exact List.mem_range.mp inside
  · intro inside
    exact ⟨c.index, List.mem_range.mpr inside, rfl⟩

theorem dependsDirectly_eq_declares (built : build declarations = .ok g) :
    g.DependsDirectly = Declares declarations :=
  funext fun a => funext fun b => propext ((isGraphOf_build built).dependencies a b)

theorem dependsOn_iff_requires (built : build declarations = .ok g) (a b : ChunkId) :
    g.dependsOn a b = true ↔ Requires declarations a b := by
  rw [(build_coherent built).dependsOn_iff, mem_order_iff built, dependsDirectly_eq_declares built]
  rfl

theorem dependsOn_eq_false_iff (built : build declarations = .ok g) (a b : ChunkId) :
    g.dependsOn a b = false ↔ ¬ Requires declarations a b := by
  rw [← dependsOn_iff_requires built, Bool.not_eq_true]

theorem isSibling_iff (built : build declarations = .ok g) (a b : ChunkId) :
    g.isSibling a b = true ↔
      ¬ Requires declarations a b ∧ ¬ Requires declarations b a ∧ g.commonAncestors a b ≠ [] := by
  rw [isSibling_eq_true_iff, dependsOn_eq_false_iff built, dependsOn_eq_false_iff built]

theorem isSibling_eq_false_of_requires (built : build declarations = .ok g) {a b : ChunkId}
    (requires : Requires declarations a b) : g.isSibling a b = false := by
  rw [← Bool.not_eq_true, isSibling_iff built]
  exact fun siblings => siblings.1 requires

theorem mem_commonAncestors (built : build declarations = .ok g) {a b c : ChunkId} :
    c ∈ g.commonAncestors a b ↔ Requires declarations a c ∧ Requires declarations b c := by
  rw [(build_coherent built).mem_commonAncestors, dependsOn_iff_requires built,
    dependsOn_iff_requires built]

/-- Only declared chunks are siblings. -/
theorem requires_self_of_isSibling (built : build declarations = .ok g) {a b : ChunkId}
    (siblings : g.isSibling a b = true) : Requires declarations a a := by
  obtain ⟨-, -, some⟩ := (isSibling_iff built a b).mp siblings
  obtain ⟨c, member⟩ := List.exists_mem_of_ne_nil _ some
  obtain ⟨inside, -⟩ := ((mem_commonAncestors built).mp member).1
  exact ⟨inside, .refl⟩

end

/-- The chunks that two chunks both require are listed in loading order, and the two are siblings exactly if
    there are such chunks but neither requires the other. -/
theorem build_answers_pair {declarations : List ChunkDeclaration} {g : ChunkGraph}
    (built : build declarations = .ok g) (a b : ChunkId) : AnswersPair declarations g a b := by
  have coherent := build_coherent built
  constructor
  case inOrder => exact List.filter_sublist
  case mem_iff => exact fun c => mem_commonAncestors built
  case sorted =>
    intro found nodup both sorted
    apply coherent.eq_commonAncestors nodup _ sorted
    intro c
    rw [both, dependsOn_iff_requires built, dependsOn_iff_requires built]
  case comm => exact commonAncestors_comm g a b
  case sibling_comm => exact isSibling_comm g a b
  case sibling_iff => exact isSibling_iff built a b
  case sibling_self =>
    rw [← Bool.not_eq_true]
    intro siblings
    exact ((isSibling_iff built a a).mp siblings).1 (requires_self_of_isSibling built siblings)
  case sibling_required =>
    intro requires
    have not := isSibling_eq_false_of_requires built requires
    exact ⟨not, isSibling_comm g a b ▸ not⟩

/-- Two chunks on one base are siblings; a number that no chunk has is nobody's sibling. -/
theorem build_answers_pair_diamond :
    let declarations : List ChunkDeclaration :=
      [⟨"app", ["left", "right"]⟩, ⟨"left", ["base"]⟩, ⟨"right", ["base"]⟩, ⟨"base", []⟩]
    ∃ g, build declarations = .ok g ∧ AnswersPair declarations g ⟨1⟩ ⟨2⟩ ∧
      g.commonAncestors ⟨1⟩ ⟨2⟩ = [⟨3⟩] ∧ g.isSibling ⟨1⟩ ⟨2⟩ = true ∧
      AnswersPair declarations g ⟨1⟩ ⟨7⟩ ∧ g.isSibling ⟨1⟩ ⟨7⟩ = false := by
  intro declarations
  refine ⟨_, rfl, build_answers_pair rfl ⟨1⟩ ⟨2⟩, ?_, ?_, build_answers_pair rfl ⟨1⟩ ⟨7⟩, ?_⟩
  · rfl
  · rfl
  · rfl

end NameAudit.ChunkGraph
