import NameAudit.Proofs.Chains
import NameAudit.Proofs.CheckedReferences
import NameAudit.Proofs.EvaluationOrder

/-!
Which references violate the dependencies between chunks: those whose name is set in chunks only that
their own chunk does not depend on. The check gathers the sets of the name and of its aliases or, where
there are none, those of the nearest ancestor that has any, as far as they come first (`Defines`); it
looks at their chunks one after the other, and names the one that is loaded first.
-/
namespace NameAudit

namespace Namespace

/-- A reference sets a name or one that holds the same value. -/
def OwnSet (ns : Namespace) (n : NameId) (d : RefId) : Prop :=
  ns.IsSetOf d n ∨ ∃ e ∈ ns.aliasEquivalents n, ns.IsSetOf d e

/-- The nearest name above a name that has a set: all others that have one are above it. -/
structure IsNearestSet (ns : Namespace) (n a : NameId) : Prop where
  above : a ∈ ns.ancestors n
  isSet : ∃ d, ns.IsSetOf d a
  nearest : ∀ b ∈ ns.ancestors n, (∃ d, ns.IsSetOf d b) → b ∈ ns.selfAndAncestors a

/-- A set can define what a reference means. Only where the name and its aliases have no set at all,
    those of the nearest ancestor count, as far as they come before the reference. -/
def Defines (ns : Namespace) (i d : RefId) : Prop :=
  ns.OwnSet (ns.ref i).name d ∨
    (¬ ∃ e, ns.OwnSet (ns.ref i).name e) ∧ ∃ a, ns.IsNearestSet (ns.ref i).name a ∧
      ns.IsSetOf d a ∧ (ns.ref d).position.order < (ns.ref i).position.order

/-- A certain use in a chunk is defined, but only in chunks that its own does not depend on. -/
structure ViolatesDependencies (ns : Namespace) (g : ChunkGraph) (i : RefId) (user : ChunkId) :
    Prop where
  inChunk : (ns.ref i).position.slot = .chunk user
  isUse : (ns.ref i).type ≠ .set
  isCertain : (ns.ref i).exemption ≠ .conditional
  isDefined : ∃ d, ns.Defines i d
  outside : ∀ d, ns.Defines i d → ∃ c, (ns.ref d).position.slot = .chunk c ∧
    ¬ Relation.ReflTransGen g.DependsDirectly user c

/-- Of the chunks that define what a reference means, the one that is loaded first. -/
structure IsFirstDefiner (ns : Namespace) (g : ChunkGraph) (i : RefId) (c : ChunkId) : Prop where
  defines : ∃ d, ns.Defines i d ∧ (ns.ref d).position.slot = .chunk c
  first : ∀ d e, ns.Defines i d → (ns.ref d).position.slot = .chunk e →
    (Slot.chunk c).LoadedBy g (.chunk e)

section
variable {ns : Namespace} {g : ChunkGraph} {i d : RefId} {user : ChunkId}

/-! ### The sets that define what a reference means -/

/-- What is found first in a sorted list comes before all else that could be found. -/
theorem find?_first {α : Type} {R : α → α → Prop} {l : List α} {P : α → Bool} {a : α}
    (sorted : l.Pairwise R) (found : l.find? P = some a) {b : α} (member : b ∈ l)
    (holds : P b = true) : b = a ∨ R a b := by
  obtain ⟨_, before, after, rfl, none⟩ := List.find?_eq_some_iff_append.mp found
  rcases List.mem_append.mp member with early | late
  · have fails : P b = false := by simpa using none b early
    rw [fails] at holds
    cases holds
  · rcases List.mem_cons.mp late with same | later
    · exact .inl same
    · exact .inr (List.rel_of_pairwise_cons (List.pairwise_append.mp sorted).2.1 later)

theorem IsNearestSet.unique (forest : ns.Forest) {n a b : NameId} (first : ns.IsNearestSet n a)
    (second : ns.IsNearestSet n b) : a = b :=
  forest.eq_of_above_each_other (second.nearest a first.above first.isSet)
    (first.nearest b second.above second.isSet)

theorem find?_isNearestSet (forest : ns.Forest) (tallied : ns.Tallied) {n a : NameId}
    (found : (ns.ancestors n).find? (fun b => (ns.name b).isDefined) = some a) :
    ns.IsNearestSet n a := by
  have sorted : (ns.ancestors n).Pairwise fun a b => b ∈ ns.ancestors a :=
    (forest.selfAndAncestors_sorted n).sublist (List.tail_sublist _)
  have defined := List.find?_some found
  refine ⟨List.mem_of_find?_eq_some found, (tallied.isDefined_iff a).mp defined, ?_⟩
  intro b above isSet
  rw [selfAndAncestors_eq, List.mem_cons]
  exact find?_first sorted found above ((tallied.isDefined_iff b).mpr isSet)

theorem find?_ancestors_eq_some_iff (forest : ns.Forest) (tallied : ns.Tallied) (n a : NameId) :
    (ns.ancestors n).find? (fun b => (ns.name b).isDefined) = some a ↔ ns.IsNearestSet n a := by
  refine ⟨find?_isNearestSet forest tallied, fun nearest => ?_⟩
  cases found : (ns.ancestors n).find? fun b => (ns.name b).isDefined with
  | none =>
    exact absurd ((tallied.isDefined_iff a).mpr nearest.isSet)
      (List.find?_eq_none.mp found a nearest.above)
  | some b =>
    exact congrArg some ((find?_isNearestSet forest tallied found).unique forest nearest)

theorem Tallied.mem_setsOf (tallied : ns.Tallied) (n : NameId) (d : RefId) :
    d ∈ ns.setsOf (n :: ns.aliasEquivalents n) ↔ ns.OwnSet n d := by
  simp [setsOf, OwnSet, tallied.mem_sets]

theorem mem_definingSets (forest : ns.Forest) (tallied : ns.Tallied) (i d : RefId) :
    d ∈ ns.definingSets (ns.ref i).name (ns.ref i) ↔ ns.Defines i d := by
  have own := tallied.mem_setsOf (ns.ref i).name
  have nearest := find?_ancestors_eq_some_iff forest tallied (ns.ref i).name
  unfold definingSets Defines
  split
  next noSets =>
    have noOwn : ¬ ∃ e, ns.OwnSet (ns.ref i).name e := by
      rintro ⟨e, ownSet⟩
      have listed := (own e).mpr ownSet
      rw [noSets] at listed
      cases listed
    have notOwn : ¬ ns.OwnSet (ns.ref i).name d := fun ownSet => noOwn ⟨d, ownSet⟩
    simp only [notOwn, noOwn, false_or, not_false_eq_true, true_and]
    split
    next none =>
      constructor
      · intro member
        cases member
      · rintro ⟨a, isNearest, _⟩
        have found := none.symm.trans ((nearest a).mpr isNearest)
        cases found
    next a found =>
      rw [List.mem_filter, tallied.mem_sets, decide_eq_true_iff]
      have isNearest := (nearest a).mp found
      constructor
      · rintro ⟨isSet, before⟩
        exact ⟨a, isNearest, isSet, before⟩
      · rintro ⟨b, alsoNearest, isSet, before⟩
        obtain rfl := isNearest.unique forest alsoNearest
        exact ⟨isSet, before⟩
  next hasSets =>
    rw [own]
    refine ⟨.inl, ?_⟩
    rintro (ownSet | ⟨noOwn, _⟩)
    · exact ownSet
    · obtain ⟨e, listed⟩ := List.exists_mem_of_ne_nil _ hasSets
      exact absurd ⟨e, (own e).mp listed⟩ noOwn

theorem OwnSet.hasRef {n : NameId} (ownSet : ns.OwnSet n d) : ns.HasRef d := by
  rcases ownSet with isSet | ⟨_, _, isSet⟩
  · exact isSet.1
  · exact isSet.1

theorem Defines.hasRef (defines : ns.Defines i d) : ns.HasRef d := by
  rcases defines with ownSet | ⟨_, _, _, isSet, _⟩
  · exact ownSet.hasRef
  · exact isSet.1

/-! ### Their chunks -/

theorem mem_of_chunksOf? {ds : List RefId} {chunks : List ChunkId}
    (collected : ns.chunksOf? ds = some chunks) :
    (∀ d ∈ ds, ∃ c ∈ chunks, (ns.ref d).position.slot = .chunk c) ∧
      ∀ c ∈ chunks, ∃ d ∈ ds, (ns.ref d).position.slot = .chunk c := by
  induction ds generalizing chunks with
  | nil =>
    obtain rfl := Option.some_inj.mp collected
    simp
  | cons d ds ih =>
    unfold chunksOf? at collected
    split at collected
    next => cases collected
    next c slot =>
      obtain ⟨later, rest, rfl⟩ := Option.map_eq_some_iff.mp collected
      obtain ⟨inChunks, ofSets⟩ := ih rest
      constructor
      · intro e member
        rcases List.mem_cons.mp member with rfl | after
        · exact ⟨c, List.mem_cons_self, slot⟩
        · obtain ⟨b, listed, slotE⟩ := inChunks e after
          exact ⟨b, List.mem_cons_of_mem c listed, slotE⟩
      · intro b listed
        rcases List.mem_cons.mp listed with rfl | after
        · exact ⟨d, List.mem_cons_self, slot⟩
        · obtain ⟨e, member, slotE⟩ := ofSets b after
          exact ⟨e, List.mem_cons_of_mem d member, slotE⟩

theorem exists_chunksOf? {ds : List RefId}
    (inChunks : ∀ d ∈ ds, ∃ c, (ns.ref d).position.slot = .chunk c) :
    ∃ chunks, ns.chunksOf? ds = some chunks := by
  induction ds with
  | nil => exact ⟨[], rfl⟩
  | cons d ds ih =>
    obtain ⟨c, slot⟩ := inChunks d List.mem_cons_self
    obtain ⟨later, rest⟩ := ih fun e member => inChunks e (List.mem_cons_of_mem d member)
    refine ⟨c :: later, ?_⟩
    simp only [chunksOf?, slot, rest, Option.map_some]

theorem earliest?_spec (coherent : g.Coherent) {chunks : List ChunkId} {c : ChunkId}
    (found : earliest? g chunks = some c) :
    c ∈ chunks ∧ ∀ e ∈ chunks, e ∈ g.order → (Slot.chunk c).LoadedBy g (.chunk e) := by
  have member := List.find?_some found
  have loaded : (Slot.chunk c).IsLoaded g := List.mem_of_find?_eq_some found
  refine ⟨by simpa using member, fun e inChunks inOrder => ?_⟩
  rcases find?_first coherent.order_sorted found inOrder (by simpa using inChunks) with rfl | before
  · exact loaded.loadedBy_self
  · exact before.2

/-! ### The check of one reference -/

theorem strictDefiner?_eq_some_iff (g : ChunkGraph) (user : ChunkId) (n : NameId) (r : Ref)
    (definer : ChunkId) : ns.strictDefiner? g user n r = some definer ↔
      (r.type ≠ .set ∧ r.exemption ≠ .conditional) ∧
        ∃ chunks, ns.chunksOf? (ns.definingSets n r) = some chunks ∧
          (∀ c ∈ chunks, ¬ g.dependsOn user c = true) ∧ earliest? g chunks = some definer := by
  unfold strictDefiner?
  by_cases exempt : r.type = .set ∨ r.exemption = .conditional
  · rw [if_pos exempt, ← not_or]
    simp [exempt]
  · rw [if_neg exempt, ← not_or]
    cases ns.chunksOf? (ns.definingSets n r) with
    | none => simp
    | some chunks =>
      by_cases depends : ∃ c ∈ chunks, g.dependsOn user c = true
      · have someDepends := List.any_eq_true.mpr depends
        obtain ⟨c, member, holds⟩ := depends
        simp only [someDepends, if_true, Option.some_inj, exists_eq_left']
        exact ⟨nofun, fun ⟨_, independent, _⟩ => absurd holds (independent c member)⟩
      · have noneDepends : ¬ chunks.any (g.dependsOn user) = true :=
          fun some => depends (List.any_eq_true.mp some)
        have independent : ∀ c ∈ chunks, ¬ g.dependsOn user c = true :=
          fun c member holds => depends ⟨c, member, holds⟩
        simp only [noneDepends, Option.some_inj, exists_eq_left']
        exact ⟨fun found => ⟨exempt, independent, found⟩, fun ⟨_, _, found⟩ => found⟩

section
variable (forest : ns.Forest) (tallied : ns.Tallied) (coherent : g.Coherent)
  (loaded : ∀ d, ns.HasRef d → (ns.ref d).position.slot.IsLoaded g)
include forest tallied coherent loaded

theorem violates_of_strictDefiner? (has : ns.HasRef i)
    (inChunk : (ns.ref i).position.slot = .chunk user) {definer : ChunkId}
    (found : ns.strictDefiner? g user (ns.ref i).name (ns.ref i) = some definer) :
    ns.ViolatesDependencies g i user ∧ ns.IsFirstDefiner g i definer := by
  have defining := mem_definingSets forest tallied i
  obtain ⟨⟨isUse, isCertain⟩, chunks, collected, independent, earliest⟩ :=
    (strictDefiner?_eq_some_iff ..).mp found
  obtain ⟨inChunks, ofSets⟩ := mem_of_chunksOf? collected
  obtain ⟨listed, first⟩ := earliest?_spec coherent earliest
  obtain ⟨d, member, slot⟩ := ofSets definer listed
  have userLoaded := loaded i has
  rw [inChunk] at userLoaded
  constructor
  · refine ⟨inChunk, isUse, isCertain, ⟨d, (defining d).mp member⟩, fun e defines => ?_⟩
    obtain ⟨c, listedC, slotE⟩ := inChunks e ((defining e).mpr defines)
    refine ⟨c, slotE, fun reaches => independent c listedC ?_⟩
    exact (coherent.dependsOn_iff user c).mpr ⟨userLoaded, reaches⟩
  · refine ⟨⟨d, (defining d).mp member, slot⟩, fun e c defines slotE => ?_⟩
    obtain ⟨b, listedB, same⟩ := inChunks e ((defining e).mpr defines)
    obtain rfl := Slot.chunk.inj (same.symm.trans slotE)
    have inOrder := loaded e defines.hasRef
    rw [slotE] at inOrder
    exact first b listedB inOrder

theorem exists_strictDefiner? (violates : ns.ViolatesDependencies g i user) :
    ∃ definer, ns.strictDefiner? g user (ns.ref i).name (ns.ref i) = some definer := by
  have defining := mem_definingSets forest tallied i
  obtain ⟨chunks, collected⟩ : ∃ chunks,
      ns.chunksOf? (ns.definingSets (ns.ref i).name (ns.ref i)) = some chunks := by
    refine exists_chunksOf? fun d member => ?_
    obtain ⟨c, slot, _⟩ := violates.outside d ((defining d).mp member)
    exact ⟨c, slot⟩
  obtain ⟨inChunks, ofSets⟩ := mem_of_chunksOf? collected
  have independent : ∀ c ∈ chunks, ¬ g.dependsOn user c = true := by
    intro c listed depends
    obtain ⟨d, member, slot⟩ := ofSets c listed
    obtain ⟨e, same, notReached⟩ := violates.outside d ((defining d).mp member)
    obtain rfl := Slot.chunk.inj (slot.symm.trans same)
    exact notReached ((coherent.dependsOn_iff user c).mp depends).2
  obtain ⟨definer, earliest⟩ : ∃ definer, earliest? g chunks = some definer := by
    obtain ⟨d, defines⟩ := violates.isDefined
    obtain ⟨c, listed, slot⟩ := inChunks d ((defining d).mpr defines)
    have inOrder := loaded d defines.hasRef
    rw [slot] at inOrder
    exact Option.isSome_iff_exists.mp <|
      List.find?_isSome.mpr ⟨c, inOrder, List.contains_iff_mem.mpr listed⟩
  exact ⟨definer, (strictDefiner?_eq_some_iff ..).mpr
    ⟨⟨violates.isUse, violates.isCertain⟩, chunks, collected, independent, earliest⟩⟩

theorem violates_of_strictFinding? (has : ns.HasRef i) {f : Finding}
    (found : ns.strictFinding? g (ns.ref i).name (ns.ref i) = some f) :
    ∃ user definer, ns.ViolatesDependencies g i user ∧ ns.IsFirstDefiner g i definer ∧
      f = ⟨i, (ns.name (ns.ref i).name).fullName,
        .strictDependency definer (g.isSibling user definer)⟩ := by
  unfold strictFinding? at found
  split at found
  next => cases found
  next user inChunk =>
    obtain ⟨definer, foundDefiner, rfl⟩ := Option.map_eq_some_iff.mp found
    obtain ⟨violates, first⟩ :=
      violates_of_strictDefiner? forest tallied coherent loaded has inChunk foundDefiner
    rw [tallied.id_eq i has]
    exact ⟨user, definer, violates, first, rfl⟩

theorem strictFinding?_of_violates (has : ns.HasRef i) (violates : ns.ViolatesDependencies g i user) :
    ∃ definer, ns.IsFirstDefiner g i definer ∧ ns.strictFinding? g (ns.ref i).name (ns.ref i) =
      some ⟨i, (ns.name (ns.ref i).name).fullName,
        .strictDependency definer (g.isSibling user definer)⟩ := by
  obtain ⟨definer, found⟩ := exists_strictDefiner? forest tallied coherent loaded violates
  obtain ⟨_, first⟩ := violates_of_strictDefiner? forest tallied coherent loaded has violates.inChunk
    found
  refine ⟨definer, first, ?_⟩
  unfold strictFinding?
  split
  next environment => cases violates.inChunk.symm.trans environment
  next other inChunk =>
    obtain rfl := Slot.chunk.inj (violates.inChunk.symm.trans inChunk)
    rw [found, tallied.id_eq i has]
    rfl

end

/-! ### Chains -/

/-- A chunk of a chain depends on all that is loaded no later. -/
theorem chain_depends_of_loadedBy {names : List String} (built : ChunkGraph.chain names = .ok g)
    {a b : ChunkId} (before : (Slot.chunk b).LoadedBy g (.chunk a)) :
    Relation.ReflTransGen g.DependsDirectly a b := by
  have coherent := ChunkGraph.build_coherent built
  obtain ⟨j, i, rankB, rankA, notLater⟩ := before
  obtain ⟨memberA, rfl⟩ := (ChunkGraph.rank?_eq_some_iff a i).mp rankA
  obtain ⟨memberB, rfl⟩ := (ChunkGraph.rank?_eq_some_iff b j).mp rankB
  rcases ChunkGraph.chain_dependsOn_or built memberA memberB with depends | depends
  · exact ((coherent.dependsOn_iff a b).mp depends).2
  · have reaches := ((coherent.dependsOn_iff b a).mp depends).2
    have notEarlier := (coherent.idxOf_le memberB reaches).2
    obtain rfl := (List.idxOf_inj memberA).mp (Nat.le_antisymm notEarlier notLater)
    exact .refl

/-- On a chain, the first definer comes after the user, and some set is one of the name itself or of an
    alias. -/
structure OnChain (ns : Namespace) (g : ChunkGraph) (i : RefId) (definer : ChunkId) : Prop where
  later : ∃ user k l, (ns.ref i).position.slot = .chunk user ∧ g.rank? user = some k ∧
    g.rank? definer = some l ∧ k < l
  ownSet : ∃ d, ns.OwnSet (ns.ref i).name d

theorem ViolatesDependencies.onChain {names : List String} {definer : ChunkId}
    (violates : ns.ViolatesDependencies g i user) (first : ns.IsFirstDefiner g i definer)
    (built : ChunkGraph.chain names = .ok g)
    (loaded : ∀ d, ns.HasRef d → (ns.ref d).position.slot.IsLoaded g) (has : ns.HasRef i)
    (follows : ∀ d, ns.HasRef d → (ns.ref d).position.order < (ns.ref i).position.order →
      (ns.ref d).position.slot.LoadedBy g (ns.ref i).position.slot) :
    ns.OnChain g i definer := by
  -- What is loaded no later than the user is no definer.
  have later : ∀ d c, ns.Defines i d → (ns.ref d).position.slot = .chunk c →
      ¬ (Slot.chunk c).LoadedBy g (.chunk user) := by
    intro d c defines slot before
    obtain ⟨e, same, notReached⟩ := violates.outside d defines
    obtain rfl := Slot.chunk.inj (slot.symm.trans same)
    exact notReached (chain_depends_of_loadedBy built before)
  constructor
  · obtain ⟨d, defines, slot⟩ := first.defines
    have userLoaded := loaded i has
    have definerLoaded := loaded d defines.hasRef
    rw [violates.inChunk] at userLoaded
    rw [slot] at definerLoaded
    have rankUser := (ChunkGraph.rank?_eq_some_iff user _).mpr ⟨userLoaded, rfl⟩
    have rankDefiner := (ChunkGraph.rank?_eq_some_iff definer _).mpr ⟨definerLoaded, rfl⟩
    refine ⟨user, _, _, violates.inChunk, rankUser, rankDefiner, ?_⟩
    by_contra notLater
    exact later d definer defines slot
      ⟨_, _, rankDefiner, rankUser, Nat.not_lt.mp notLater⟩
  · obtain ⟨d, defines⟩ := violates.isDefined
    have hasD := defines.hasRef
    rcases defines with ownSet | ⟨noOwn, a, nearest, isSet, before⟩
    · exact ⟨d, ownSet⟩
    · have defines : ns.Defines i d := .inr ⟨noOwn, a, nearest, isSet, before⟩
      obtain ⟨c, slot, _⟩ := violates.outside d defines
      have notLater := follows d hasD before
      rw [slot, violates.inChunk] at notLater
      exact absurd notLater (later d c defines slot)

end
end Namespace

open Namespace

/-- A checked reference violates the dependencies between chunks if and only if it is a certain use of
    what is set, and its chunk depends on no chunk that sets it; it is reported once then, with the
    first of these chunks. On a chain, that chunk is a later one. -/
theorem Program.Assembled.reports_strict_dependencies {p : Program} (assembled : p.Assembled) :
    (∀ i, (ofProgram p).IsChecked i → ∀ user, (ofProgram p).ViolatesDependencies p.graph i user →
      ∃ definer, (ofProgram p).IsFirstDefiner p.graph i definer ∧
        ((ofProgram p).findings p.graph).filter (isKindAt i .strictDependency) =
          [⟨i, ((ofProgram p).name ((ofProgram p).ref i).name).fullName,
            .strictDependency definer (p.graph.isSibling user definer)⟩]) ∧
    (∀ i, (ofProgram p).IsChecked i →
      (∀ user, ¬ (ofProgram p).ViolatesDependencies p.graph i user) →
      ((ofProgram p).findings p.graph).filter (isKindAt i .strictDependency) = []) ∧
    ∀ names, ChunkGraph.chain names = .ok p.graph → ∀ f ∈ (ofProgram p).findings p.graph,
      ∀ definer isSibling, f.problem = .strictDependency definer isSibling →
        (ofProgram p).OnChain p.graph f.reference definer := by
  obtain ⟨declarations, builtGraph⟩ := assembled.built
  have coherent := ChunkGraph.build_coherent builtGraph
  have forest := ofProgram_forest p
  have tallied := ofProgram_tallied p
  have loaded : ∀ d, (ofProgram p).HasRef d →
      ((ofProgram p).ref d).position.slot.IsLoaded p.graph :=
    fun d has => (ofProgram_loads p has).isLoaded
  refine ⟨fun i checked user violates => ?_, fun i checked never => ?_,
    fun names built f member definer isSibling strict => ?_⟩
  · obtain ⟨definer, first, found⟩ :=
      strictFinding?_of_violates forest tallied coherent loaded checked.has violates
    refine ⟨definer, first, ?_⟩
    rw [checked.filter_strict forest tallied, found]
    rfl
  · rw [checked.filter_strict forest tallied, Option.toList_eq_nil_iff,
      Option.eq_none_iff_forall_ne_some]
    intro f found
    obtain ⟨user, _, violates, _⟩ :=
      violates_of_strictFinding? forest tallied coherent loaded checked.has found
    exact never user violates
  · have checked := isChecked_of_mem_findings forest tallied member
    have kind : f.problem.kind = .strictDependency := congrArg Problem.kind strict
    have listed := mem_filter_isKindAt member kind
    rw [checked.filter_strict forest tallied, Option.mem_toList] at listed
    obtain ⟨user, first, violates, isFirst, same⟩ :=
      violates_of_strictFinding? forest tallied coherent loaded checked.has listed
    have problem := congrArg Finding.problem same
    rw [strict] at problem
    obtain ⟨rfl, _⟩ := Problem.strictDependency.inj problem
    exact violates.onChain isFirst built loaded checked.has fun d hasD before =>
      (ofProgram_sorted coherent assembled.numbered hasD checked.has before).slots

/-- In a chain of two chunks, the first uses a name that only the second sets. -/
def earlyUse : Program :=
  let graph : ChunkGraph := ⟨#[⟨"base", []⟩, ⟨"app", [⟨0⟩]⟩], [⟨0⟩, ⟨1⟩], #[[⟨0⟩], [⟨1⟩, ⟨0⟩]]⟩
  let base := ((Program.ofGraph graph).addSource ⟨0⟩ "base.js" "var ns = 0; ns.f();").1
  (base.addSource ⟨1⟩ "app.js" "ns.f = 1;").1

theorem reports_strict_dependencies_early_use :
    ChunkGraph.chain ["base", "app"] = .ok earlyUse.graph ∧ earlyUse.Assembled ∧
      (∃ user, (ofProgram earlyUse).ViolatesDependencies earlyUse.graph ⟨1⟩ user) ∧
      (ofProgram earlyUse).OnChain earlyUse.graph ⟨1⟩ ⟨1⟩ := by
  have graph : ChunkGraph.chain ["base", "app"] =
      .ok ⟨#[⟨"base", []⟩, ⟨"app", [⟨0⟩]⟩], [⟨0⟩, ⟨1⟩], #[[⟨0⟩], [⟨1⟩, ⟨0⟩]]⟩ := by rfl
  have built : ChunkGraph.chain ["base", "app"] = .ok earlyUse.graph := by
    rw [earlyUse, Program.graph_addSource, Program.graph_addSource]
    exact graph
  have assembled : earlyUse.Assembled := .addSource (.addSource (.ofGraph graph) _ _ _) _ _ _
  have forest := ofProgram_forest earlyUse
  have tallied := ofProgram_tallied earlyUse
  -- The climb to the root is a recursion that only its equations unfold.
  have up : (ofProgram earlyUse).selfAndAncestors ⟨1⟩ = [⟨1⟩, ⟨0⟩] := by
    have below : ((ofProgram earlyUse).name ⟨1⟩).parent = some ⟨0⟩ := by decide +kernel
    have root : ((ofProgram earlyUse).name ⟨0⟩).parent = none := by decide +kernel
    rw [forest.selfAndAncestors_of_child below, selfAndAncestors_of_root root]
  have name : ((ofProgram earlyUse).ref ⟨1⟩).name = ⟨1⟩ := by decide +kernel
  have checked : (ofProgram earlyUse).IsChecked ⟨1⟩ := by
    have has : 1 < (ofProgram earlyUse).refs.size := by decide +kernel
    refine ⟨has, by decide +kernel, ⟨0⟩, ?_, by decide +kernel⟩
    rw [name, rootOf, up]
    decide +kernel
  have found : (ofProgram earlyUse).strictFinding? earlyUse.graph ⟨1⟩
      ((ofProgram earlyUse).ref ⟨1⟩) = some ⟨⟨1⟩, "ns.f", .strictDependency ⟨1⟩ false⟩ := by
    have noAliases : (ofProgram earlyUse).aliasEquivalents ⟨1⟩ = [] := by
      rw [aliasEquivalents, up]
      decide +kernel
    simp only [strictFinding?, strictDefiner?, definingSets, noAliases]
    decide +kernel
  have listed : ((ofProgram earlyUse).findings earlyUse.graph).filter
      (isKindAt ⟨1⟩ .strictDependency) = [⟨⟨1⟩, "ns.f", .strictDependency ⟨1⟩ false⟩] := by
    rw [checked.filter_strict forest tallied, name, found]
    rfl
  obtain ⟨_, never, onChain⟩ := assembled.reports_strict_dependencies
  refine ⟨built, assembled, ?_, ?_⟩
  · by_contra none
    rw [never ⟨1⟩ checked fun user violates => none ⟨user, violates⟩] at listed
    cases listed
  · have member := (List.mem_filter.mp (listed ▸ List.mem_singleton_self _)).1
    exact onChain _ built _ member ⟨1⟩ false rfl

end NameAudit
