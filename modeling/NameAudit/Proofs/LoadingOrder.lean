import NameAudit.ChunkGraph
import Mathlib.Algebra.GroupWithZero.Nat
import Mathlib.Data.List.Nodup
import Mathlib.Data.List.Perm.Subperm
import Mathlib.Logic.Relation

/-!
The loading order of a chunk graph. `Loads` is the loading of chunks one after the other, and every
fact about the order, about the counters of what is missing and about the table of dependencies is
proved along it: what a chunk needs is loaded before it, a counter is the number of dependencies that
are not loaded, and the table holds what a chunk needs through any number of chunks (`Coherent`).
-/
namespace NameAudit.ChunkGraph

/-- A chunk depends on another directly. -/
def Needs (chunks : List Chunk) (a b : ChunkId) : Prop :=
  ∃ chunk, chunks[a.index]? = some chunk ∧ b ∈ chunk.dependencies

/-- The states of loading, from the start on. -/
inductive Loads (chunks : List Chunk) : Loading → Prop
  | start : Loads chunks (Loading.start chunks)
  | next {s : Loading} {c : ChunkId} (before : Loads chunks s)
      (first : s.next? chunks = some c) : Loads chunks (s.load chunks c)

section
variable {chunks : List Chunk} {s : Loading} {order : List ChunkId} {a b c : ChunkId}

theorem mem_ids : c ∈ ids chunks ↔ c.index < chunks.length := by
  simp only [ids, List.mem_map, List.mem_range]
  constructor
  · rintro ⟨i, small, rfl⟩
    exact small
  · intro small
    exact ⟨c.index, small, rfl⟩

theorem length_ids (chunks : List Chunk) : (ids chunks).length = chunks.length := by simp [ids]

theorem ids_nodup (chunks : List Chunk) : (ids chunks).Nodup :=
  List.nodup_range.map fun _ _ same => congrArg ChunkId.index same

theorem needs_iff : Needs chunks a b ↔ b ∈ dependenciesOf chunks a := by
  unfold Needs dependenciesOf
  cases chunks[a.index]? <;> simp

/-! ### The counters -/

theorem sum_map_if (l : List ChunkId) (c : ChunkId) (k : Nat) :
    (l.map fun d => if d = c then k else 0).sum = l.count c * k := by
  induction l with
  | nil => simp
  | cons d l ih =>
    rw [List.map_cons, List.sum_cons, ih, List.count_cons, Nat.add_mul, Nat.add_comm]
    by_cases same : d = c <;> simp [same]

/-- A chunk is among those that depend on another as often as the other is among those that it
    depends on. -/
theorem count_dependents (chunks : List Chunk) (b c : ChunkId) :
    (dependents chunks b).count c = (dependenciesOf chunks c).count b := by
  have each : ∀ d, (((dependenciesOf chunks d).filter (· == b)).map fun _ => d).count c =
      if d = c then (dependenciesOf chunks c).count b else 0 := by
    intro d
    rw [List.map_const', List.count_replicate]
    by_cases same : d = c
    · simp [same, List.count_eq_countP, List.countP_eq_length_filter]
    · simp [same]
  have once : (dependents chunks b).count c =
      (ids chunks).count c * (dependenciesOf chunks c).count b := by
    rw [dependents, List.count_flatMap, ← sum_map_if]
    exact congrArg List.sum (List.map_congr_left fun d _ => each d)
  rw [once]
  by_cases known : c ∈ ids chunks
  · rw [List.count_eq_one_of_mem (ids_nodup chunks) known, Nat.one_mul]
  · have foreign : chunks[c.index]? = none :=
      List.getElem?_eq_none (Nat.not_lt.mp fun small => known (mem_ids.mpr small))
    simp [dependenciesOf, foreign]

theorem getD_lower (missing : List Nat) (ds : List ChunkId) (c : ChunkId) :
    ((ds.foldl (fun missing d => missing.modify d.index (· - 1)) missing)[c.index]?).getD 0 =
      (missing[c.index]?).getD 0 - ds.count c := by
  induction ds generalizing missing with
  | nil => simp
  | cons d ds ih =>
    rw [List.foldl_cons, ih, List.getElem?_modify, List.count_cons]
    by_cases same : d = c
    · subst same
      cases missing[d.index]? <;> simp [Nat.sub_sub, Nat.add_comm]
    · have other : d.index ≠ c.index := fun equal => same (congrArg ChunkId.mk equal :)
      cases missing[c.index]? <;> simp [same, other]

/-- Loading a chunk lowers each counter as often as the chunk is needed. -/
theorem missingOf_load (s : Loading) (b c : ChunkId) :
    (s.load chunks b).missingOf c = s.missingOf c - (dependenciesOf chunks c).count b := by
  rw [← count_dependents]
  exact getD_lower s.missing (dependents chunks b) c

theorem missingOf_start (c : ChunkId) :
    (Loading.start chunks).missingOf c = (dependenciesOf chunks c).length := by
  simp only [Loading.start, Loading.missingOf, dependenciesOf, List.getElem?_map]
  cases chunks[c.index]? <;> rfl

/-- The chunks of a list that are not loaded yet are those that will not be after the next one, and
    the next one. -/
theorem countP_of_next {loaded : List ChunkId} (absent : c ∉ loaded) (l : List ChunkId) :
    l.countP (· ∉ loaded) = l.countP (· ∉ loaded ++ [c]) + l.count c := by
  induction l with
  | nil => rfl
  | cons d l ih =>
    rw [List.countP_cons, List.countP_cons, List.count_cons, ih]
    by_cases same : d = c
    · subst same
      simp [absent, Nat.add_assoc]
    · by_cases old : d ∈ loaded <;> simp [same, old]
      omega

theorem next?_spec (found : s.next? chunks = some c) :
    c.index < chunks.length ∧ c ∉ s.loaded ∧ s.missingOf c = 0 := by
  have known := mem_ids.mp (List.mem_of_find?_eq_some found)
  have test := List.find?_some found
  rw [Bool.and_eq_true] at test
  exact ⟨known, by simpa using test.1, by simpa using test.2⟩

/-- A counter is the number of dependencies that are not loaded. -/
theorem Loads.missingOf_eq (loads : Loads chunks s) (c : ChunkId) :
    s.missingOf c = (dependenciesOf chunks c).countP (· ∉ s.loaded) := by
  induction loads with
  | start =>
    rw [missingOf_start]
    exact (List.countP_eq_length.mpr fun d _ => by simp [Loading.start]).symm
  | @next s d before first ih =>
    have absent := (next?_spec first).2.1
    rw [missingOf_load, ih, countP_of_next absent, Nat.add_sub_cancel]
    rfl

/-- No counter is lowered below zero. -/
theorem Loads.count_dependents_le (loads : Loads chunks s) (found : s.next? chunks = some b)
    (c : ChunkId) : (dependents chunks b).count c ≤ s.missingOf c := by
  rw [count_dependents, loads.missingOf_eq, countP_of_next (next?_spec found).2.1]
  exact Nat.le_add_left _ _

theorem Loads.missingOf_eq_zero_iff (loads : Loads chunks s) (c : ChunkId) :
    s.missingOf c = 0 ↔ ∀ b, Needs chunks c b → b ∈ s.loaded := by
  rw [loads.missingOf_eq, List.countP_eq_zero]
  simp only [needs_iff, decide_eq_true_eq, not_not]

/-- The next chunk is not loaded when all that it needs is. -/
theorem Loads.ready (loads : Loads chunks s) (found : s.next? chunks = some c) :
    c ∉ s.loaded ∧ c.index < chunks.length ∧ ∀ b, Needs chunks c b → b ∈ s.loaded := by
  obtain ⟨known, absent, zero⟩ := next?_spec found
  exact ⟨absent, known, (loads.missingOf_eq_zero_iff c).mp zero⟩

/-! ### The order -/

theorem Loads.nodup (loads : Loads chunks s) : s.loaded.Nodup := by
  induction loads with
  | start => exact List.nodup_nil
  | @next s c before first ih =>
    have absent := (before.ready first).1
    show (s.loaded ++ [c]).Nodup
    rw [List.nodup_append]
    refine ⟨ih, List.nodup_singleton _, fun a old b new => ?_⟩
    rw [List.mem_singleton.mp new]
    exact fun same => absent (same ▸ old)

theorem Loads.index_lt (loads : Loads chunks s) (member : c ∈ s.loaded) :
    c.index < chunks.length := by
  induction loads with
  | start => cases member
  | next before first ih =>
    rcases List.mem_append.mp member with old | new
    · exact ih old
    · rw [List.mem_singleton.mp new]
      exact (before.ready first).2.1

/-- What a chunk needs is loaded before it. -/
theorem Loads.before (loads : Loads chunks s) (needs : Needs chunks a b) (member : a ∈ s.loaded) :
    b ∈ s.loaded ∧ s.loaded.idxOf b < s.loaded.idxOf a := by
  induction loads with
  | start => cases member
  | @next s c before first ih =>
    obtain ⟨absent, _, ready⟩ := before.ready first
    show b ∈ s.loaded ++ [c] ∧ (s.loaded ++ [c]).idxOf b < (s.loaded ++ [c]).idxOf a
    rcases List.mem_append.mp member with old | new
    · obtain ⟨there, earlier⟩ := ih old
      rw [List.idxOf_append_of_mem there, List.idxOf_append_of_mem old]
      exact ⟨List.mem_append_left [c] there, earlier⟩
    · obtain rfl := List.mem_singleton.mp new
      have there := ready b needs
      rw [List.idxOf_append_of_mem there, List.idxOf_append_of_notMem absent]
      have inside := List.idxOf_lt_length_of_mem there
      exact ⟨List.mem_append_left [a] there, by omega⟩

theorem loads_schedule {n : Nat} (loads : Loads chunks s)
    (scheduled : schedule chunks n s = .ok order) :
    ∃ last, Loads chunks last ∧ last.loaded = order ∧ order.length = s.loaded.length + n := by
  induction n generalizing s with
  | zero =>
    obtain rfl : s.loaded = order := Except.ok.inj scheduled
    exact ⟨s, loads, rfl, rfl⟩
  | succ n ih =>
    unfold schedule at scheduled
    split at scheduled
    next c first =>
      obtain ⟨last, complete, same, length⟩ := ih (.next loads first) scheduled
      have longer : (s.load chunks c).loaded.length = s.loaded.length + 1 := by simp [Loading.load]
      exact ⟨last, complete, same, by omega⟩
    next => cases scheduled

/-- An order as long as the list of chunks is one of all of them. -/
theorem Loads.perm (loads : Loads chunks s) (length : s.loaded.length = chunks.length) :
    s.loaded.Perm (ids chunks) := by
  have within : s.loaded.Subperm (ids chunks) :=
    loads.nodup.subperm fun d member => mem_ids.mpr (loads.index_lt member)
  exact within.perm_of_length_le (by rw [length_ids]; omega)

/-! ### The table of dependencies -/

theorem size_addReach (table : Array (List ChunkId)) :
    (addReach chunks table c).size = table.size := by
  unfold addReach
  split <;> simp

/-- The entry of a table for a chunk. -/
def entry (table : Array (List ChunkId)) (c : ChunkId) : List ChunkId := (table[c.index]?).getD []

theorem mem_entry_addReach (table : Array (List ChunkId)) (inside : c.index < table.size)
    (known : c.index < chunks.length) : b ∈ entry (addReach chunks table c) c ↔
      b = c ∨ ∃ d, Needs chunks c d ∧ b ∈ entry table d := by
  have found : chunks[c.index]? = some chunks[c.index] := List.getElem?_eq_getElem known
  simp only [addReach, found, entry, Array.getElem?_setIfInBounds_self_of_lt inside,
    Option.getD_some, List.mem_eraseDups, List.mem_cons, List.mem_flatMap]
  constructor
  · rintro (same | ⟨d, needed, reached⟩)
    · exact .inl same
    · exact .inr ⟨d, ⟨_, found, needed⟩, reached⟩
  · rintro (same | ⟨d, ⟨chunk, found', needed⟩, reached⟩)
    · exact .inl same
    · obtain rfl := Option.some_inj.mp (found.symm.trans found')
      exact .inr ⟨d, needed, reached⟩

theorem entry_addReach_of_ne (table : Array (List ChunkId)) (other : a.index ≠ c.index) :
    entry (addReach chunks table c) a = entry table a := by
  unfold addReach entry
  split
  · rfl
  · rw [Array.getElem?_setIfInBounds_ne (Ne.symm other)]

theorem reachTable_append (chunks : List Chunk) (loaded : List ChunkId) (c : ChunkId) :
    reachTable chunks (loaded ++ [c]) = addReach chunks (reachTable chunks loaded) c :=
  List.foldl_append

theorem Loads.size_reachTable (loads : Loads chunks s) :
    (reachTable chunks s.loaded).size = chunks.length := by
  induction loads with
  | start => simp [reachTable, Loading.start]
  | @next s c before first ih =>
    show (reachTable chunks (s.loaded ++ [c])).size = _
    rw [reachTable_append, size_addReach, ih]

/-- The table holds, for each loaded chunk, what it needs through any number of chunks. -/
theorem Loads.mem_reachTable (loads : Loads chunks s) (a b : ChunkId) :
    b ∈ entry (reachTable chunks s.loaded) a ↔
      a ∈ s.loaded ∧ Relation.ReflTransGen (Needs chunks) a b := by
  induction loads generalizing a with
  | start =>
    by_cases known : a.index < chunks.length
    · simp [Loading.start, reachTable, entry, known]
    · simp [Loading.start, reachTable, entry, known]
  | @next s c before first ih =>
    obtain ⟨absent, known, ready⟩ := before.ready first
    show b ∈ entry (reachTable chunks (s.loaded ++ [c])) a ↔ a ∈ s.loaded ++ [c] ∧ _
    rw [reachTable_append]
    by_cases new : a.index = c.index
    · obtain rfl : a = c := by
        cases a
        cases c
        exact congrArg ChunkId.mk new
      have inside : a.index < (reachTable chunks s.loaded).size := by
        rw [before.size_reachTable]
        exact known
      rw [mem_entry_addReach _ inside known, Relation.ReflTransGen.cases_head_iff]
      constructor
      · rintro (same | ⟨d, needs, reached⟩)
        · exact ⟨by simp, .inl same.symm⟩
        · exact ⟨by simp, .inr ⟨d, needs, ((ih d).mp reached).2⟩⟩
      · rintro ⟨_, same | ⟨d, needs, reaches⟩⟩
        · exact .inl same.symm
        · exact .inr ⟨d, needs, (ih d).mpr ⟨ready d needs, reaches⟩⟩
    · have old : a ∈ s.loaded ++ [c] ↔ a ∈ s.loaded := by
        rw [List.mem_append, List.mem_singleton]
        exact or_iff_left fun same => new (congrArg ChunkId.index same)
      rw [entry_addReach_of_ne _ new, ih a, old]

end

/-! ### Graphs that were built -/

theorem idxOf?_eq_some_iff {α : Type} [BEq α] [LawfulBEq α] {l : List α} (x : α) (k : Nat) :
    l.idxOf? x = some k ↔ x ∈ l ∧ l.idxOf x = k := by
  rw [List.idxOf?, List.findIdx?_eq_some_iff_findIdx_eq, ← List.idxOf_lt_length_iff]
  constructor
  · rintro ⟨inside, rfl⟩
    exact ⟨inside, rfl⟩
  · rintro ⟨inside, rfl⟩
    exact ⟨inside, rfl⟩

/-- A chunk of a graph depends on another directly. -/
def DependsDirectly (g : ChunkGraph) : ChunkId → ChunkId → Prop := Needs g.chunks.toList

/-- The order and the table of a graph are those of its dependencies. -/
structure Coherent (g : ChunkGraph) : Prop where
  nodup : g.order.Nodup
  mem_order : ∀ c, c ∈ g.order ↔ c.index < g.size
  before : ∀ a b, g.DependsDirectly a b → a ∈ g.order →
    b ∈ g.order ∧ g.order.idxOf b < g.order.idxOf a
  dependsOn_iff : ∀ a b, g.dependsOn a b = true ↔
    a ∈ g.order ∧ Relation.ReflTransGen g.DependsDirectly a b

section
variable {g : ChunkGraph} {declarations : List ChunkDeclaration}

/-- The steps of building a graph. -/
theorem build_eq_ok (built : build declarations = .ok g) :
    ∃ chunks order, firstDuplicate? [] (declarations.map (·.name)) = none ∧
      resolveAll (declarations.map (·.name)) declarations = .ok chunks ∧
      schedule chunks chunks.length (Loading.start chunks) = .ok order ∧
      g = ⟨chunks.toArray, order, reachTable chunks order⟩ := by
  unfold build at built
  split at built
  · cases built
  · dsimp only at built
    split at built
    next => cases built
    next distinct =>
      split at built
      next => cases built
      next chunks resolved =>
        split at built
        next => cases built
        next order scheduled =>
          exact ⟨chunks, order, distinct, resolved, scheduled, (Except.ok.inj built).symm⟩

theorem build_coherent (built : build declarations = .ok g) : g.Coherent := by
  obtain ⟨chunks, order, _, _, scheduled, rfl⟩ := build_eq_ok built
  obtain ⟨last, loads, rfl, length⟩ := loads_schedule .start scheduled
  have all := loads.perm (by simpa [Loading.start] using length)
  refine ⟨loads.nodup, fun c => ?_, fun a b needs member => ?_, fun a b => ?_⟩
  · rw [all.mem_iff, mem_ids]
    simp [size]
  · exact loads.before needs member
  · rw [dependsOn, List.contains_iff_mem]
    exact loads.mem_reachTable a b

/-- The rank of a chunk is its place in the order. -/
theorem rank?_eq_some_iff (c : ChunkId) (k : Nat) :
    g.rank? c = some k ↔ c ∈ g.order ∧ g.order.idxOf c = k :=
  idxOf?_eq_some_iff c k

/-- What a chunk depends on is loaded no later. -/
theorem Coherent.idxOf_le (coherent : g.Coherent) {a b : ChunkId} (member : a ∈ g.order)
    (depends : Relation.ReflTransGen g.DependsDirectly a b) :
    b ∈ g.order ∧ g.order.idxOf b ≤ g.order.idxOf a := by
  induction depends with
  | refl => exact ⟨member, Nat.le_refl _⟩
  | @tail b c _ needs ih =>
    obtain ⟨there, notLater⟩ := ih
    obtain ⟨further, earlier⟩ := coherent.before b c needs there
    exact ⟨further, by omega⟩

end
end NameAudit.ChunkGraph
