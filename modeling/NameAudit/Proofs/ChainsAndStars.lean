import NameAudit.Proofs.Siblings

/-!
The graphs of two shapes: chains, of which each chunk depends on the one before it, and stars, of which each
chunk but the first depends on the first. In both all dependencies lead back in the list of declarations, so
that distinct names always make a graph (`exists_build_of_back`). What depends on what is told by the numbers.
-/
namespace NameAudit.ChunkGraph

/-- The declarations of a chain. -/
def chainDeclarations (names : List String) : List ChunkDeclaration :=
  List.zipWith (fun name earlier => ⟨name, earlier⟩) names ([] :: names.map fun name => [name])

/-- The declarations of a star. -/
def starDeclarations (root : String) (leaves : List String) : List ChunkDeclaration :=
  ⟨root, []⟩ :: leaves.map fun leaf => ⟨leaf, [root]⟩

/-- A graph is a chain of chunks with these names. -/
structure IsChainOf (names : List String) (g : ChunkGraph) : Prop where
  /-- Numbers follow the list. -/
  name : ∀ c, g.name? c = names[c.index]?
  byName : ∀ text c, g.byName? text = some c ↔ names[c.index]? = some text
  dependsOn : ∀ a b, g.dependsOn a b = true ↔ b.index ≤ a.index ∧ a.index < names.length
  total : ∀ a b, a.index < names.length → b.index < names.length →
    g.dependsOn a b = true ∨ g.dependsOn b a = true
  order : g.order = (List.range names.length).map ChunkId.mk
  noSiblings : ∀ a b, g.isSibling a b = false

/-- A graph is a star of chunks with these names. -/
structure IsStarOf (root : String) (leaves : List String) (g : ChunkGraph) : Prop where
  name : ∀ c, g.name? c = (root :: leaves)[c.index]?
  byName : ∀ text c, g.byName? text = some c ↔ (root :: leaves)[c.index]? = some text
  first : g.byName? root = some ⟨0⟩
  dependsOn : ∀ a b, g.dependsOn a b = true ↔ (a = b ∨ b = ⟨0⟩) ∧ a.index ≤ leaves.length
  siblings : ∀ a b, 0 < a.index → a.index ≤ leaves.length → 0 < b.index → b.index ≤ leaves.length →
    a ≠ b → g.isSibling a b = true ∧ g.commonAncestors a b = [⟨0⟩]
  alone : ∀ a, g.isSibling ⟨0⟩ a = false ∧ g.isSibling a ⟨0⟩ = false

/-- What becomes of names that are to be a chain. -/
structure ChainAnswers (names : List String) : Prop where
  graph : names ≠ [] → names.Nodup → ∃ g, chain names = .ok g ∧ IsChainOf names g
  duplicate : ¬ names.Nodup →
    ∃ name, chain names = .error (.duplicate name) ∧ IsFirstRepeat names name

/-- What becomes of names that are to be a star. -/
structure StarAnswers (root : String) (leaves : List String) : Prop where
  graph : (root :: leaves).Nodup → ∃ g, star root leaves = .ok g ∧ IsStarOf root leaves g
  duplicate : ¬ (root :: leaves).Nodup →
    ∃ name, star root leaves = .error (.duplicate name) ∧ IsFirstRepeat (root :: leaves) name

section
variable {declarations : List ChunkDeclaration} {names leaves : List String} {root : String}
  {g : ChunkGraph}

/-! ### Dependencies that lead back -/

theorem index_lt_of_back (back : ∀ a b, Declares declarations a b → b.index < a.index)
    {a b : ChunkId} (reaches : Relation.TransGen (Declares declarations) a b) : b.index < a.index := by
  induction reaches with
  | single declares => exact back _ _ declares
  | tail _ declares ih => exact Nat.lt_trans (back _ _ declares) ih

theorem exists_build_of_back (some : declarations ≠ []) (nodup : (declarations.map (·.name)).Nodup)
    (known : ∀ d ∈ declarations, d.dependencies ⊆ declarations.map (·.name))
    (back : ∀ a b, Declares declarations a b → b.index < a.index) : ∃ g, build declarations = .ok g := by
  apply exists_build some nodup known
  rintro ⟨c, cycle⟩
  exact Nat.lt_irrefl _ (index_lt_of_back back cycle)

theorem exists_build_of_not_nodup (repeated : ¬ (declarations.map (·.name)).Nodup) :
    ∃ name, build declarations = .error (.duplicate name) ∧
      IsFirstRepeat (declarations.map (·.name)) name := by
  cases found : firstDuplicate? [] (declarations.map (·.name)) with
  | none => exact absurd (firstDuplicate?_eq_none_iff.mp found) repeated
  | some name =>
    have first := (firstDuplicate?_eq_some_iff name).mp found
    exact ⟨name, build_of_repeat first, first⟩

/-! ### Names of chunks -/

theorem name?_of_built (built : build declarations = .ok g) (c : ChunkId) :
    g.name? c = (declarations.map (·.name))[c.index]? := by
  rw [(isGraphOf_build built).name, List.getElem?_map]

/-- A name leads to the chunk that has it. -/
theorem byName?_eq_some_iff (built : build declarations = .ok g) (text : String) (c : ChunkId) :
    g.byName? text = some c ↔ (declarations.map (·.name))[c.index]? = some text := by
  obtain ⟨chunks, order, distinct, resolved, -, rfl⟩ := build_eq_ok built
  have nodup := firstDuplicate?_eq_none_iff.mp distinct
  have found : chunks.findIdx? (·.name == text) = (declarations.map (·.name)).idxOf? text := by
    rw [← (resolveAll_eq_ok resolved).1, List.idxOf?, List.findIdx?_map]
    rfl
  rw [byName?, List.findIdx?_toArray, found, Option.map_eq_some_iff, List.getElem?_map,
    Option.map_eq_some_iff, ← idxOf?_name_iff nodup]
  constructor
  · rintro ⟨i, here, rfl⟩
    exact here
  · intro here
    exact ⟨c.index, here, rfl⟩

/-! ### Chains -/

/-- Each chunk of a chain depends on the name before its own. -/
theorem chain_declaration_iff (i : Nat) (d : ChunkDeclaration) :
    (chainDeclarations names)[i]? = some d ↔ names[i]? = some d.name ∧
      (([] :: names.map fun name => [name])[i]? = some d.dependencies) := by
  rw [chainDeclarations, List.getElem?_zipWith_eq_some]
  constructor
  · rintro ⟨name, earlier, here, before, rfl⟩
    exact ⟨here, before⟩
  · rintro ⟨here, before⟩
    exact ⟨d.name, d.dependencies, here, before, rfl⟩

theorem chain_back (nodup : names.Nodup) (a b : ChunkId)
    (declares : Declares (chainDeclarations names) a b) : b.index < a.index := by
  obtain ⟨d, e, here, there, depends⟩ := declares
  obtain ⟨-, before⟩ := (chain_declaration_iff _ d).mp here
  obtain ⟨found, -⟩ := (chain_declaration_iff _ e).mp there
  cases place : a.index with
  | zero =>
    rw [place, List.getElem?_cons_zero] at before
    rw [← Option.some.inj before] at depends
    cases depends
  | succ i =>
    rw [place, List.getElem?_cons_succ, List.getElem?_map, Option.map_eq_some_iff] at before
    obtain ⟨name, previous, only⟩ := before
    rw [← only, List.mem_singleton] at depends
    have inside := (List.getElem?_eq_some_iff.mp found).1
    have same : b.index = i := (List.getElem?_inj inside nodup).mp (by rw [found, previous, depends])
    rw [same]
    exact Nat.lt_succ_self i

theorem chain_known : ∀ d ∈ chainDeclarations names, d.dependencies ⊆ names := by
  intro d member
  obtain ⟨i, inside, rfl⟩ := List.getElem_of_mem member
  obtain ⟨-, before⟩ := (chain_declaration_iff i _).mp (List.getElem?_eq_getElem inside)
  rcases List.mem_cons.mp (List.mem_of_getElem? before) with none | one
  · simp [none]
  · obtain ⟨name, known, only⟩ := List.mem_map.mp one
    rw [← only]
    simpa using known

theorem chain_requires_iff (nodup : names.Nodup) (built : build (chainDeclarations names) = .ok g)
    (a b : ChunkId) :
    Requires (chainDeclarations names) a b ↔ b.index ≤ a.index ∧ a.index < names.length := by
  have length : (chainDeclarations names).length = names.length := by simp [chainDeclarations]
  rw [Requires, length, and_comm]
  refine and_congr_left fun inside => ⟨fun reaches => ?_, fun earlier => ?_⟩
  · rcases Relation.reflTransGen_iff_eq_or_transGen.mp reaches with rfl | further
    · exact Nat.le_refl _
    · exact Nat.le_of_lt (index_lt_of_back (chain_back nodup) further)
  · have member : a ∈ g.order := (mem_order_iff built a).mpr (length ▸ inside)
    rw [← dependsDirectly_eq_declares built]
    exact chain_reaches built earlier (((build_coherent built).mem_order a).mp member)

/-- The chunks of a chain are loaded as they are listed. -/
theorem chain_order (nodup : names.Nodup) (built : build (chainDeclarations names) = .ok g) :
    g.order = (List.range names.length).map ChunkId.mk := by
  have length : (chainDeclarations names).length = names.length := by simp [chainDeclarations]
  have coherent := build_coherent built
  have antisymm : ∀ c d : ChunkId, c ∈ g.order → d ∈ (List.range names.length).map ChunkId.mk →
      c.index < d.index → d.index < c.index → c = d := by
    intro c d _ _ before after
    exact absurd after (Nat.lt_asymm before)
  have increasing : g.order.Pairwise fun c d => c.index < d.index := by
    rw [List.pairwise_iff_getElem]
    intro i j insideI insideJ before
    by_contra notBefore
    -- The chunk at the earlier place would depend on the one at the later place.
    have memberI := List.getElem_mem insideI
    have requires : Requires (chainDeclarations names) g.order[i] g.order[j] := by
      rw [chain_requires_iff nodup built, ← length]
      exact ⟨Nat.not_lt.mp notBefore, (mem_order_iff built _).mp memberI⟩
    have depends := (dependsOn_iff_requires built _ _).mpr requires
    have notLater := (coherent.idxOf_le memberI ((coherent.dependsOn_iff _ _).mp depends).2).2
    rw [coherent.nodup.idxOf_getElem, coherent.nodup.idxOf_getElem] at notLater
    omega
  have numbers : ((List.range names.length).map ChunkId.mk).Pairwise fun c d => c.index < d.index :=
    List.pairwise_map.mpr List.pairwise_lt_range
  have perm : g.order.Perm ((List.range names.length).map ChunkId.mk) :=
    length ▸ (isGraphOf_build built).permutation
  exact perm.eq_of_pairwise antisymm increasing numbers

theorem chain_dependsOn_iff (nodup : names.Nodup) (built : build (chainDeclarations names) = .ok g)
    (a b : ChunkId) : g.dependsOn a b = true ↔ b.index ≤ a.index ∧ a.index < names.length := by
  rw [dependsOn_iff_requires built, chain_requires_iff nodup built]

theorem chain_noSiblings (built : build (chainDeclarations names) = .ok g) (a b : ChunkId) :
    g.isSibling a b = false := by
  have coherent := build_coherent built
  rw [← Bool.not_eq_true, isSibling_eq_true_iff]
  rintro ⟨notOn, notBy, some⟩
  obtain ⟨c, member⟩ := List.exists_mem_of_ne_nil _ some
  obtain ⟨onA, onB⟩ := coherent.mem_commonAncestors.mp member
  have memberA := ((coherent.dependsOn_iff a c).mp onA).1
  have memberB := ((coherent.dependsOn_iff b c).mp onB).1
  rcases chain_dependsOn_or built memberA memberB with on | back
  · exact absurd (notOn.symm.trans on) Bool.false_ne_true
  · exact absurd (notBy.symm.trans back) Bool.false_ne_true

theorem chain_isChainOf (nodup : names.Nodup) (built : build (chainDeclarations names) = .ok g) :
    IsChainOf names g := by
  have declared : (chainDeclarations names).map (·.name) = names := names_chain names
  constructor
  case name => exact fun c => declared ▸ name?_of_built built c
  case byName => exact fun text c => declared ▸ byName?_eq_some_iff built text c
  case dependsOn => exact chain_dependsOn_iff nodup built
  case total =>
    intro a b insideA insideB
    rw [chain_dependsOn_iff nodup built, chain_dependsOn_iff nodup built]
    rcases Nat.le_total b.index a.index with earlier | earlier
    · exact .inl ⟨earlier, insideA⟩
    · exact .inr ⟨earlier, insideB⟩
  case order => exact chain_order nodup built
  case noSiblings => exact chain_noSiblings built

/-! ### Stars -/

theorem names_star (root : String) (leaves : List String) :
    (starDeclarations root leaves).map (·.name) = root :: leaves := by
  simp [starDeclarations, Function.comp_def]

/-- Each chunk of a star but the first depends on the first. -/
theorem star_declares_iff (nodup : (root :: leaves).Nodup) {a b : ChunkId} :
    Declares (starDeclarations root leaves) a b ↔
      b = ⟨0⟩ ∧ 0 < a.index ∧ a.index ≤ leaves.length := by
  constructor
  · rintro ⟨d, e, here, there, depends⟩
    cases place : a.index with
    | zero =>
      rw [place, starDeclarations, List.getElem?_cons_zero] at here
      rw [← Option.some.inj here] at depends
      cases depends
    | succ i =>
      rw [place, starDeclarations, List.getElem?_cons_succ, List.getElem?_map,
        Option.map_eq_some_iff] at here
      obtain ⟨leaf, found, rfl⟩ := here
      have named : (root :: leaves)[b.index]? = some root := by
        rw [← names_star, List.getElem?_map, there, Option.map_some, List.mem_singleton.mp depends]
      have inside := (List.getElem?_eq_some_iff.mp named).1
      have first : b.index = 0 := (List.getElem?_inj inside nodup).mp named
      have small := (List.getElem?_eq_some_iff.mp found).1
      exact ⟨congrArg ChunkId.mk first, Nat.succ_pos i, small⟩
  · rintro ⟨rfl, after, inside⟩
    obtain ⟨i, place⟩ := Nat.exists_eq_add_of_lt after
    have small : i < leaves.length := by omega
    refine ⟨⟨leaves[i], [root]⟩, ⟨root, []⟩, ?_, rfl, List.mem_singleton_self root⟩
    rw [place, Nat.zero_add, starDeclarations, List.getElem?_cons_succ, List.getElem?_map,
      List.getElem?_eq_getElem small, Option.map_some]

theorem star_back (nodup : (root :: leaves).Nodup) (a b : ChunkId)
    (declares : Declares (starDeclarations root leaves) a b) : b.index < a.index := by
  obtain ⟨rfl, after, -⟩ := (star_declares_iff nodup).mp declares
  exact after

theorem star_requires_iff (nodup : (root :: leaves).Nodup) (a b : ChunkId) :
    Requires (starDeclarations root leaves) a b ↔ (a = b ∨ b = ⟨0⟩) ∧ a.index ≤ leaves.length := by
  have length : (starDeclarations root leaves).length = leaves.length + 1 := by
    simp [starDeclarations]
  rw [Requires, length, and_comm, Nat.lt_succ_iff]
  refine and_congr_left fun inside => ⟨fun reaches => ?_, fun which => ?_⟩
  · rcases Relation.ReflTransGen.cases_tail reaches with rfl | ⟨c, -, declares⟩
    · exact .inl rfl
    · exact .inr ((star_declares_iff nodup).mp declares).1
  · rcases which with rfl | rfl
    · exact .refl
    · by_cases first : a = ⟨0⟩
      · rw [first]
      · apply Relation.ReflTransGen.single
        rw [star_declares_iff nodup]
        refine ⟨rfl, Nat.pos_of_ne_zero ?_, inside⟩
        exact fun zero => first (congrArg ChunkId.mk zero)

theorem star_known : ∀ d ∈ starDeclarations root leaves, d.dependencies ⊆ root :: leaves := by
  simp [starDeclarations]

theorem star_dependsOn_iff (nodup : (root :: leaves).Nodup)
    (built : build (starDeclarations root leaves) = .ok g) (a b : ChunkId) :
    g.dependsOn a b = true ↔ (a = b ∨ b = ⟨0⟩) ∧ a.index ≤ leaves.length := by
  rw [dependsOn_iff_requires built, star_requires_iff nodup]

/-- Two different chunks of a star have only the first one in common. -/
theorem star_commonAncestors (nodup : (root :: leaves).Nodup)
    (built : build (starDeclarations root leaves) = .ok g) {a b : ChunkId}
    (insideA : a.index ≤ leaves.length) (insideB : b.index ≤ leaves.length) (other : a ≠ b) :
    g.commonAncestors a b = [⟨0⟩] := by
  symm
  apply (build_coherent built).eq_commonAncestors (List.nodup_singleton _) _ (List.pairwise_singleton _ _)
  intro c
  rw [List.mem_singleton, star_dependsOn_iff nodup built, star_dependsOn_iff nodup built]
  constructor
  · rintro rfl
    exact ⟨⟨.inr rfl, insideA⟩, .inr rfl, insideB⟩
  · rintro ⟨⟨rfl | first, -⟩, which, -⟩
    · exact which.resolve_left other.symm
    · exact first

theorem star_siblings (nodup : (root :: leaves).Nodup)
    (built : build (starDeclarations root leaves) = .ok g) {a b : ChunkId}
    (afterA : 0 < a.index) (insideA : a.index ≤ leaves.length)
    (afterB : 0 < b.index) (insideB : b.index ≤ leaves.length) (other : a ≠ b) :
    g.isSibling a b = true := by
  have notFirst : ∀ c : ChunkId, 0 < c.index → c ≠ ⟨0⟩ := by
    rintro c after rfl
    exact Nat.lt_irrefl 0 after
  rw [isSibling_iff built, star_requires_iff nodup, star_requires_iff nodup,
    star_commonAncestors nodup built insideA insideB other]
  refine ⟨?_, ?_, List.cons_ne_nil _ _⟩
  · rintro ⟨same | first, -⟩
    · exact other same
    · exact notFirst b afterB first
  · rintro ⟨same | first, -⟩
    · exact other same.symm
    · exact notFirst a afterA first

theorem star_first_not_sibling (nodup : (root :: leaves).Nodup)
    (built : build (starDeclarations root leaves) = .ok g) (a : ChunkId) :
    g.isSibling a ⟨0⟩ = false := by
  rw [← Bool.not_eq_true]
  intro siblings
  have itself := (star_requires_iff nodup a a).mp (requires_self_of_isSibling built siblings)
  have onFirst := (star_requires_iff nodup a ⟨0⟩).mpr ⟨.inr rfl, itself.2⟩
  exact ((isSibling_iff built a ⟨0⟩).mp siblings).1 onFirst

theorem star_isStarOf (nodup : (root :: leaves).Nodup)
    (built : build (starDeclarations root leaves) = .ok g) : IsStarOf root leaves g := by
  have declared := names_star root leaves
  have byName : ∀ text c, g.byName? text = some c ↔ (root :: leaves)[c.index]? = some text :=
    fun text c => declared ▸ byName?_eq_some_iff built text c
  constructor
  case name => exact fun c => declared ▸ name?_of_built built c
  case byName => exact byName
  case first => exact (byName root ⟨0⟩).mpr rfl
  case dependsOn => exact star_dependsOn_iff nodup built
  case siblings =>
    intro a b afterA insideA afterB insideB other
    exact ⟨star_siblings nodup built afterA insideA afterB insideB other,
      star_commonAncestors nodup built insideA insideB other⟩
  case alone =>
    intro a
    have apart := star_first_not_sibling nodup built a
    exact ⟨isSibling_comm g ⟨0⟩ a ▸ apart, apart⟩

end

/-- Distinct names make a chain, in which each chunk depends on all that are not listed after it, and a star, in
    which each chunk depends on itself and on the first. A repeated name is reported. -/
theorem chain_and_star_answer (names : List String) (root : String) (leaves : List String) :
    ChainAnswers names ∧ StarAnswers root leaves := by
  have chainNames : (chainDeclarations names).map (·.name) = names := names_chain names
  have starNames := names_star root leaves
  constructor
  · constructor
    case graph =>
      intro some nodup
      have nonempty : chainDeclarations names ≠ [] := by
        rintro empty
        exact some (by rw [← chainNames, empty, List.map_nil])
      obtain ⟨g, built⟩ := exists_build_of_back nonempty (chainNames.symm ▸ nodup)
        (chainNames.symm ▸ chain_known) (chain_back nodup)
      exact ⟨g, built, chain_isChainOf nodup built⟩
    case duplicate =>
      intro repeated
      obtain ⟨name, answer, first⟩ := exists_build_of_not_nodup (chainNames.symm ▸ repeated)
      exact ⟨name, answer, chainNames ▸ first⟩
  · constructor
    case graph =>
      intro nodup
      obtain ⟨g, built⟩ := exists_build_of_back (List.cons_ne_nil _ _) (starNames.symm ▸ nodup)
        (starNames.symm ▸ star_known) (star_back nodup)
      exact ⟨g, built, star_isStarOf nodup built⟩
    case duplicate =>
      intro repeated
      obtain ⟨name, answer, first⟩ := exists_build_of_not_nodup (starNames.symm ▸ repeated)
      exact ⟨name, answer, starNames ▸ first⟩

/-- A chain of three, a star of three, and a leaf that is called like the root. -/
theorem chain_and_star_answer_of_three :
    (∃ g, chain ["a", "b", "c"] = .ok g ∧ IsChainOf ["a", "b", "c"] g) ∧
      (∃ g, star "root" ["x", "y"] = .ok g ∧ IsStarOf "root" ["x", "y"] g) ∧
      ∃ name, star "root" ["x", "root"] = .error (.duplicate name) ∧
        IsFirstRepeat ["root", "x", "root"] name := by
  obtain ⟨chained, starred⟩ := chain_and_star_answer ["a", "b", "c"] "root" ["x", "y"]
  refine ⟨chained.graph (List.cons_ne_nil _ _) (by decide), starred.graph (by decide), ?_⟩
  exact (chain_and_star_answer [] "root" ["x", "root"]).2.duplicate (by decide)

end NameAudit.ChunkGraph
