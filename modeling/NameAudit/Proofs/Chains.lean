import NameAudit.Proofs.LoadingOrder

/-!
Graphs of which each chunk depends on the one before it. The names of the chunks are their numbers in
the list, so of two chunks the later one always depends on the earlier one (`chain_dependsOn_or`).
-/
namespace NameAudit.ChunkGraph

theorem firstDuplicate?_eq_none {seen names : List String}
    (distinct : firstDuplicate? seen names = none) :
    names.Nodup ∧ ∀ name ∈ names, name ∉ seen := by
  induction names generalizing seen with
  | nil => simp
  | cons name names ih =>
    unfold firstDuplicate? at distinct
    split at distinct
    next => cases distinct
    next fresh =>
      obtain ⟨nodup, unseen⟩ := ih distinct
      have absent : name ∉ names := fun again => unseen name again List.mem_cons_self
      refine ⟨List.nodup_cons.mpr ⟨absent, nodup⟩, fun other member => ?_⟩
      rcases List.mem_cons.mp member with rfl | later
      · simpa using fresh
      · exact fun before => unseen other later (List.mem_cons_of_mem name before)

/-- Each declaration becomes the chunk with its number. -/
theorem resolveAll_getElem? {names : List String} {declarations : List ChunkDeclaration}
    {chunks : List Chunk} (resolved : resolveAll names declarations = .ok chunks) (i : Nat) :
    (chunks[i]? = none ∧ declarations[i]? = none) ∨
      ∃ d dependencies, declarations[i]? = some d ∧ resolve names d.dependencies = .ok dependencies ∧
        chunks[i]? = some ⟨d.name, dependencies⟩ := by
  induction declarations generalizing chunks i with
  | nil =>
    obtain rfl := Except.ok.inj resolved
    exact .inl ⟨rfl, rfl⟩
  | cons d declarations ih =>
    unfold resolveAll at resolved
    split at resolved
    next => cases resolved
    next dependencies own =>
      split at resolved
      next => cases resolved
      next later others =>
        obtain rfl := Except.ok.inj resolved
        cases i with
        | zero => exact .inr ⟨d, dependencies, rfl, own, rfl⟩
        | succ i => simpa using ih others i

theorem resolve_singleton {names : List String} {name : String} {dependencies : List ChunkId}
    (resolved : resolve names [name] = .ok dependencies) :
    dependencies = [⟨names.idxOf name⟩] := by
  unfold resolve at resolved
  split at resolved
  next => cases resolved
  next i found =>
    obtain ⟨_, rfl⟩ := (idxOf?_eq_some_iff name i).mp found
    simp only [resolve, List.filter_nil] at resolved
    exact (Except.ok.inj resolved).symm

section
variable {names : List String} {g : ChunkGraph}

/-- The declarations of a chain have the names of its chunks. -/
theorem names_chain (names : List String) :
    (List.zipWith (fun name earlier => (⟨name, earlier⟩ : ChunkDeclaration)) names
      ([] :: names.map fun name => [name])).map (·.name) = names := by
  refine List.ext_getElem (by simp) fun i _ _ => ?_
  simp

theorem chain_dependsDirectly (built : chain names = .ok g) {n : Nat} (inside : n + 1 < g.size) :
    g.DependsDirectly ⟨n + 1⟩ ⟨n⟩ := by
  obtain ⟨chunks, order, distinct, resolved, _, rfl⟩ := build_eq_ok built
  rw [names_chain] at distinct resolved
  have nodup := (firstDuplicate?_eq_none distinct).1
  have known : n + 1 < chunks.length := by simpa [size] using inside
  rcases resolveAll_getElem? resolved (n + 1) with ⟨none, _⟩ | ⟨d, _, declared, own, found⟩
  · rw [List.getElem?_eq_getElem known] at none
    cases none
  · obtain ⟨name, earlier, _, before, rfl⟩ := List.getElem?_zipWith_eq_some.mp declared
    rw [List.getElem?_cons_succ, List.getElem?_map, Option.map_eq_some_iff] at before
    obtain ⟨dependency, there, rfl⟩ := before
    obtain ⟨inNames, rfl⟩ := List.getElem?_eq_some_iff.mp there
    obtain rfl := resolve_singleton own
    refine ⟨_, found, ?_⟩
    rw [nodup.idxOf_getElem n inNames]
    exact List.mem_singleton_self _

/-- In a chain a chunk depends on every earlier one. -/
theorem chain_reaches (built : chain names = .ok g) {a b : Nat} (earlier : b ≤ a)
    (inside : a < g.size) : Relation.ReflTransGen g.DependsDirectly ⟨a⟩ ⟨b⟩ := by
  induction a with
  | zero =>
    obtain rfl := Nat.le_zero.mp earlier
    exact .refl
  | succ a ih =>
    by_cases same : b = a + 1
    · rw [same]
    · exact .head (chain_dependsDirectly built inside) (ih (by omega) (by omega))

/-- Of two chunks of a chain one depends on the other. -/
theorem chain_dependsOn_or (built : chain names = .ok g) {a b : ChunkId} (memberA : a ∈ g.order)
    (memberB : b ∈ g.order) : g.dependsOn a b = true ∨ g.dependsOn b a = true := by
  have coherent := build_coherent built
  have insideA := (coherent.mem_order a).mp memberA
  have insideB := (coherent.mem_order b).mp memberB
  rw [coherent.dependsOn_iff, coherent.dependsOn_iff]
  rcases Nat.le_total b.index a.index with earlier | earlier
  · exact .inl ⟨memberA, chain_reaches built earlier insideA⟩
  · exact .inr ⟨memberB, chain_reaches built earlier insideB⟩

end
end NameAudit.ChunkGraph
