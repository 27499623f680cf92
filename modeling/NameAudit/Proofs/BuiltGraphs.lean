import NameAudit.Proofs.Chains
import Mathlib.Data.Fintype.EquivFin
import Mathlib.Order.WellFounded

/-!
What becomes of declarations of chunks. The first repeated name is reported, or else the first unknown
dependency, or else that the declared dependencies form a cycle; in all other cases there is a graph.
Chunks get stuck just when there is a cycle: when no chunk can be loaded any more, each of the finitely
many that are left leads to one (`Loads.leads_to_cycle`). The order of a graph is the greedy one, and its
answers are those of the declared dependencies (`BuildAnswers`).
-/
namespace NameAudit.ChunkGraph

/-! ### Declarations -/

/-- A chunk depends on another directly, as declared. -/
def Declares (declarations : List ChunkDeclaration) (a b : ChunkId) : Prop :=
  ∃ d e, declarations[a.index]? = some d ∧ declarations[b.index]? = some e ∧
    e.name ∈ d.dependencies

/-- The declared dependencies form a cycle. -/
def HasCycle (declarations : List ChunkDeclaration) : Prop :=
  ∃ c, Relation.TransGen (Declares declarations) c c

/-- A name is the first of a list that equals an earlier one. -/
def IsFirstRepeat (names : List String) (name : String) : Prop :=
  ∃ before after, names = before ++ name :: after ∧ before.Nodup ∧ name ∈ before

/-- A text is the first of a list that is none of the names. -/
def IsFirstMissing (names : List String) (texts : List String) (text : String) : Prop :=
  ∃ known others, texts = known ++ text :: others ∧ known ⊆ names ∧ text ∉ names

/-- A chunk is the first that depends on what is none of the names, and this is the first such
    dependency of it. -/
def IsFirstUnknown (names : List String) (declarations : List ChunkDeclaration)
    (chunk dependency : String) : Prop :=
  ∃ before d after, declarations = before ++ d :: after ∧
    (∀ e ∈ before, e.dependencies ⊆ names) ∧ d.name = chunk ∧
    IsFirstMissing names d.dependencies dependency

/-- A chunk can be loaded after some others. -/
structure CanFollow (declarations : List ChunkDeclaration) (loaded : List ChunkId) (c : ChunkId) :
    Prop where
  isChunk : c.index < declarations.length
  absent : c ∉ loaded
  ready : ∀ b, Declares declarations c b → b ∈ loaded

/-- A graph is that of some declarations. -/
structure IsGraphOf (declarations : List ChunkDeclaration) (g : ChunkGraph) : Prop where
  name : ∀ c, g.name? c = (declarations[c.index]?).map (·.name)
  dependencies : ∀ a b, g.DependsDirectly a b ↔ Declares declarations a b
  permutation : g.order.Perm ((List.range declarations.length).map ChunkId.mk)
  /-- A chunk follows all that it depends on directly. -/
  follows : ∀ a b, Declares declarations a b → ∃ i j, g.rank? b = some i ∧ g.rank? a = some j ∧ i < j
  /-- Each chunk is the first declared one that can follow those before it. -/
  greedy : ∀ before c after, g.order = before ++ c :: after →
    CanFollow declarations before c ∧ ∀ d, CanFollow declarations before d → c.index ≤ d.index
  rank : ∀ c k, g.rank? c = some k ↔ g.order[k]? = some c
  dependsOn : ∀ a b, g.dependsOn a b = true ↔ a.index < declarations.length ∧
    b.index < declarations.length ∧ Relation.ReflTransGen (Declares declarations) a b

/-- What becomes of some declarations. -/
structure BuildAnswers (declarations : List ChunkDeclaration) : Prop where
  noChunks : build declarations = .error .noChunks ↔ declarations = []
  duplicate : ∀ name, build declarations = .error (.duplicate name) ↔
    IsFirstRepeat (declarations.map (·.name)) name
  unknownDependency : ∀ chunk dependency,
    build declarations = .error (.unknownDependency chunk dependency) ↔
      (declarations.map (·.name)).Nodup ∧
        IsFirstUnknown (declarations.map (·.name)) declarations chunk dependency
  cycle : (∃ names, build declarations = .error (.cycle names)) ↔
    (declarations.map (·.name)).Nodup ∧
      (∀ d ∈ declarations, d.dependencies ⊆ declarations.map (·.name)) ∧ HasCycle declarations
  graph : (∃ g, build declarations = .ok g) ↔
    declarations ≠ [] ∧ (declarations.map (·.name)).Nodup ∧
      (∀ d ∈ declarations, d.dependencies ⊆ declarations.map (·.name)) ∧ ¬ HasCycle declarations
  isGraphOf : ∀ g, build declarations = .ok g → IsGraphOf declarations g
  /-- While chunks are loaded, no counter of missing dependencies is lowered below zero. -/
  counters : ∀ chunks s next, resolveAll (declarations.map (·.name)) declarations = .ok chunks →
    Loads chunks s → s.next? chunks = some next →
      ∀ c, (dependents chunks next).count c ≤ s.missingOf c

section
variable {names : List String} {declarations : List ChunkDeclaration} {chunks : List Chunk}

/-! ### Repeated names -/

theorem firstDuplicate?_eq_some {seen : List String} {name : String}
    (found : firstDuplicate? seen names = some name) :
    ∃ before after, names = before ++ name :: after ∧ (before.Nodup ∧ ∀ x ∈ before, x ∉ seen) ∧
      (name ∈ before ∨ name ∈ seen) := by
  induction names generalizing seen with
  | nil => cases found
  | cons first names ih =>
    unfold firstDuplicate? at found
    split at found
    next again =>
      obtain rfl := Option.some_inj.mp found
      refine ⟨[], names, rfl, ⟨List.nodup_nil, fun x member => ?_⟩, .inr (by simpa using again)⟩
      cases member
    next fresh =>
      obtain ⟨before, after, rfl, ⟨nodup, unseen⟩, repeated⟩ := ih found
      have absent : first ∉ before := fun member => unseen first member List.mem_cons_self
      refine ⟨first :: before, after, rfl, ⟨List.nodup_cons.mpr ⟨absent, nodup⟩, ?_⟩, ?_⟩
      · intro x member
        rcases List.mem_cons.mp member with rfl | later
        · simpa using fresh
        · exact fun old => unseen x later (List.mem_cons_of_mem first old)
      · rcases repeated with inside | old
        · exact .inl (List.mem_cons_of_mem first inside)
        · rcases List.mem_cons.mp old with rfl | old
          · exact .inl List.mem_cons_self
          · exact .inr old

theorem firstDuplicate?_append {seen before after : List String} {name : String}
    (nodup : before.Nodup) (unseen : ∀ x ∈ before, x ∉ seen)
    (repeated : name ∈ before ∨ name ∈ seen) :
    firstDuplicate? seen (before ++ name :: after) = some name := by
  induction before generalizing seen with
  | nil =>
    have old : name ∈ seen := repeated.resolve_left List.not_mem_nil
    simp [firstDuplicate?, old]
  | cons first before ih =>
    obtain ⟨absent, distinct⟩ := List.nodup_cons.mp nodup
    have fresh : first ∉ seen := unseen first List.mem_cons_self
    have later : firstDuplicate? (first :: seen) (before ++ name :: after) = some name := by
      refine ih distinct (fun x member => ?_) ?_
      · rw [List.mem_cons, not_or]
        exact ⟨fun same => absent (same ▸ member), unseen x (List.mem_cons_of_mem first member)⟩
      · rcases repeated with inside | old
        · rcases List.mem_cons.mp inside with rfl | deeper
          · exact .inr List.mem_cons_self
          · exact .inl deeper
        · exact .inr (List.mem_cons_of_mem first old)
    simpa [firstDuplicate?, fresh] using later

theorem firstDuplicate?_eq_some_iff (name : String) :
    firstDuplicate? [] names = some name ↔ IsFirstRepeat names name := by
  constructor
  · intro found
    obtain ⟨before, after, split, ⟨nodup, _⟩, repeated⟩ := firstDuplicate?_eq_some found
    exact ⟨before, after, split, nodup, repeated.resolve_right List.not_mem_nil⟩
  · rintro ⟨before, after, rfl, nodup, member⟩
    exact firstDuplicate?_append nodup (fun _ _ => List.not_mem_nil) (.inl member)

theorem IsFirstRepeat.not_nodup {name : String} (first : IsFirstRepeat names name) :
    ¬ names.Nodup := by
  obtain ⟨before, after, rfl, _, member⟩ := first
  exact fun nodup => (List.nodup_append.mp nodup).2.2 name member name List.mem_cons_self rfl

theorem firstDuplicate?_eq_none_iff : firstDuplicate? [] names = none ↔ names.Nodup := by
  refine ⟨fun distinct => (firstDuplicate?_eq_none distinct).1, fun nodup => ?_⟩
  cases found : firstDuplicate? [] names with
  | none => rfl
  | some name => exact absurd nodup ((firstDuplicate?_eq_some_iff name).mp found).not_nodup

/-! ### Unknown dependencies -/

theorem resolve_eq_error_iff {texts : List String} (missing : String) :
    resolve names texts = .error missing ↔ IsFirstMissing names texts missing := by
  constructor
  · intro failed
    induction texts with
    | nil => cases failed
    | cons text texts ih =>
      unfold resolve at failed
      split at failed
      next unknown =>
        obtain rfl := Except.error.inj failed
        exact ⟨[], texts, rfl, List.nil_subset names, List.idxOf?_eq_none_iff.mp unknown⟩
      next i known =>
        split at failed
        next later =>
          obtain rfl := Except.error.inj failed
          obtain ⟨front, others, rfl, all, absent⟩ := ih later
          have member := ((idxOf?_eq_some_iff text i).mp known).1
          exact ⟨text :: front, others, rfl, List.cons_subset.mpr ⟨member, all⟩, absent⟩
        next => cases failed
  · rintro ⟨known, others, rfl, all, absent⟩
    induction known with
    | nil => simp [resolve, List.idxOf?_eq_none_iff.mpr absent]
    | cons text known ih =>
      obtain ⟨member, rest⟩ := List.cons_subset.mp all
      have found := (idxOf?_eq_some_iff text _).mpr ⟨member, rfl⟩
      simp [resolve, found, ih rest]

/-- The numbers of the chunks that the texts name, each once. -/
theorem resolve_eq_ok {texts : List String} {dependencies : List ChunkId}
    (resolved : resolve names texts = .ok dependencies) :
    texts ⊆ names ∧ ∀ c, c ∈ dependencies ↔ ∃ text ∈ texts, names.idxOf? text = some c.index := by
  induction texts generalizing dependencies with
  | nil =>
    obtain rfl := Except.ok.inj resolved
    simp
  | cons text texts ih =>
    unfold resolve at resolved
    split at resolved
    next => cases resolved
    next i found =>
      split at resolved
      next => cases resolved
      next later others =>
        obtain rfl := Except.ok.inj resolved
        obtain ⟨known, members⟩ := ih others
        have here := ((idxOf?_eq_some_iff text i).mp found).1
        refine ⟨List.cons_subset.mpr ⟨here, known⟩, fun c => ?_⟩
        rw [List.mem_cons, List.mem_filter, members]
        by_cases first : c = ⟨i⟩
        · simp [first, found]
        · have other : i ≠ c.index := fun same => first (congrArg ChunkId.mk same.symm :)
          simp [first, found, other]

theorem resolveAll_eq_error_iff (e : ChunkGraphError) :
    resolveAll names declarations = .error e ↔ ∃ chunk dependency,
      e = .unknownDependency chunk dependency ∧
        IsFirstUnknown names declarations chunk dependency := by
  constructor
  · intro failed
    induction declarations with
    | nil => cases failed
    | cons d declarations ih =>
      unfold resolveAll at failed
      split at failed
      next missing own =>
        obtain rfl := Except.error.inj failed
        have first := (resolve_eq_error_iff missing).mp own
        exact ⟨_, _, rfl, [], d, declarations, rfl, List.forall_mem_nil _, rfl, first⟩
      next own =>
        split at failed
        next later =>
          obtain rfl := Except.error.inj failed
          obtain ⟨_, _, rfl, before, e, after, rfl, known, rfl, first⟩ := ih later
          refine ⟨_, _, rfl, d :: before, e, after, rfl, ?_, rfl, first⟩
          exact List.forall_mem_cons.mpr ⟨(resolve_eq_ok own).1, known⟩
        next => cases failed
  · rintro ⟨_, dependency, rfl, before, d, after, rfl, known, rfl, first⟩
    induction before with
    | nil => simp [resolveAll, (resolve_eq_error_iff dependency).mpr first]
    | cons e before ih =>
      obtain ⟨own, rest⟩ := List.forall_mem_cons.mp known
      cases resolved : resolve names e.dependencies with
      | error missing =>
        obtain ⟨front, others, split, _, absent⟩ := (resolve_eq_error_iff missing).mp resolved
        exact absurd (own (split ▸ List.mem_append_right front List.mem_cons_self)) absent
      | ok dependencies => simp [resolveAll, resolved, ih rest]

/-! ### Dependencies by number -/

theorem resolveAll_eq_ok (resolved : resolveAll names declarations = .ok chunks) :
    chunks.map (·.name) = declarations.map (·.name) ∧
      ∀ d ∈ declarations, d.dependencies ⊆ names := by
  induction declarations generalizing chunks with
  | nil =>
    obtain rfl := Except.ok.inj resolved
    exact ⟨rfl, List.forall_mem_nil _⟩
  | cons d declarations ih =>
    unfold resolveAll at resolved
    split at resolved
    next => cases resolved
    next dependencies own =>
      split at resolved
      next => cases resolved
      next later others =>
        obtain rfl := Except.ok.inj resolved
        obtain ⟨same, known⟩ := ih others
        refine ⟨?_, List.forall_mem_cons.mpr ⟨(resolve_eq_ok own).1, known⟩⟩
        rw [List.map_cons, List.map_cons, same]

theorem length_of_resolved (resolved : resolveAll names declarations = .ok chunks) :
    chunks.length = declarations.length := by
  simpa using congrArg List.length (resolveAll_eq_ok resolved).1

/-- With distinct names, a text names the chunk that has it. -/
theorem idxOf?_name_iff (nodup : (declarations.map (·.name)).Nodup) (text : String) (i : Nat) :
    (declarations.map (·.name)).idxOf? text = some i ↔
      ∃ e, declarations[i]? = some e ∧ e.name = text := by
  rw [idxOf?_eq_some_iff, ← Option.map_eq_some_iff, ← List.getElem?_map]
  constructor
  · rintro ⟨member, rfl⟩
    exact List.getElem?_idxOf member
  · intro found
    obtain ⟨inside, rfl⟩ := List.getElem?_eq_some_iff.mp found
    exact ⟨List.getElem_mem inside, nodup.idxOf_getElem i inside⟩

/-- The chunks depend on each other as declared. -/
theorem needs_iff_declares (nodup : (declarations.map (·.name)).Nodup)
    (resolved : resolveAll (declarations.map (·.name)) declarations = .ok chunks) (a b : ChunkId) :
    Needs chunks a b ↔ Declares declarations a b := by
  rcases resolveAll_getElem? resolved a.index with ⟨none, undeclared⟩ |
    ⟨d, dependencies, declared, own, found⟩
  · simp [Needs, Declares, none, undeclared]
  · have members := (resolve_eq_ok own).2 b
    simp only [idxOf?_name_iff nodup] at members
    constructor
    · rintro ⟨chunk, here, needed⟩
      obtain rfl := Option.some_inj.mp (found.symm.trans here)
      obtain ⟨text, member, e, there, rfl⟩ := members.mp needed
      exact ⟨d, e, declared, there, member⟩
    · rintro ⟨d', e, here, there, member⟩
      obtain rfl := Option.some_inj.mp (declared.symm.trans here)
      exact ⟨_, found, members.mpr ⟨e.name, member, e, there, rfl⟩⟩

theorem needs_eq_declares (nodup : (declarations.map (·.name)).Nodup)
    (resolved : resolveAll (declarations.map (·.name)) declarations = .ok chunks) :
    Needs chunks = Declares declarations :=
  funext fun a => funext fun b => propext (needs_iff_declares nodup resolved a b)

theorem Declares.index_lt {a b : ChunkId} (declares : Declares declarations a b) :
    a.index < declarations.length ∧ b.index < declarations.length := by
  obtain ⟨d, e, here, there, _⟩ := declares
  exact ⟨(List.getElem?_eq_some_iff.mp here).1, (List.getElem?_eq_some_iff.mp there).1⟩

/-! ### Chunks that get stuck -/

/-- When no chunk can be loaded, each that is not loaded leads to a cycle. -/
theorem Loads.leads_to_cycle {s : Loading} (loads : Loads chunks s)
    (known : ∀ a b, Needs chunks a b → b.index < chunks.length) (none : s.next? chunks = none)
    {c : ChunkId} (inside : c.index < chunks.length) (absent : c ∉ s.loaded) :
    ∃ d, Relation.ReflTransGen (Needs chunks) c d ∧ Relation.TransGen (Needs chunks) d d := by
  by_contra safe
  let number : Fin chunks.length → ChunkId := fun i => ⟨i⟩
  let requires : Fin chunks.length → Fin chunks.length → Prop := fun i j =>
    Relation.TransGen (Needs chunks) (number j) (number i) ∧
      Relation.ReflTransGen (Needs chunks) c (number j)
  have : IsTrans (Fin chunks.length) requires :=
    ⟨fun _ _ _ first second => ⟨second.1.trans first.1, second.2⟩⟩
  have : Std.Irrefl requires := ⟨fun i cycle => safe ⟨number i, cycle.2, cycle.1⟩⟩
  have wellFounded := Finite.wellFounded_of_trans_of_irrefl requires
  -- Among what the chunk needs, itself included, some chunk is not loaded of which all needs are.
  obtain ⟨i, ⟨missing, reached⟩, least⟩ := wellFounded.has_min
    { i | number i ∉ s.loaded ∧ Relation.ReflTransGen (Needs chunks) c (number i) }
    ⟨⟨c.index, inside⟩, absent, .refl⟩
  have ready : ∀ b, Needs chunks (number i) b → b ∈ s.loaded := by
    intro b needs
    by_contra alsoMissing
    exact least ⟨b.index, known _ b needs⟩ ⟨alsoMissing, reached.tail needs⟩ ⟨.single needs, reached⟩
  have zero := (loads.missingOf_eq_zero_iff (number i)).mpr ready
  have rejected := List.find?_eq_none.mp none (number i) (mem_ids.mpr i.isLt)
  exact absurd (by simpa [zero] using missing) rejected

/-- Chunks are not all loaded as long as there are more of them. -/
theorem exists_not_loaded {loaded : List ChunkId} (unfinished : loaded.length < chunks.length) :
    ∃ c : ChunkId, c.index < chunks.length ∧ c ∉ loaded := by
  by_contra all
  have covered : ids chunks ⊆ loaded := fun c member => by
    by_contra absent
    exact all ⟨c, mem_ids.mp member, absent⟩
  have longer := ((ids_nodup chunks).subperm covered).length_le
  rw [length_ids] at longer
  omega

/-- Without a cycle, chunks are loaded until none is left. -/
theorem Loads.exists_next {s : Loading} (loads : Loads chunks s)
    (known : ∀ a b, Needs chunks a b → b.index < chunks.length)
    (acyclic : ¬ ∃ c, Relation.TransGen (Needs chunks) c c)
    (unfinished : s.loaded.length < chunks.length) : ∃ c, s.next? chunks = some c := by
  obtain ⟨c, inside, absent⟩ := exists_not_loaded unfinished
  cases found : s.next? chunks with
  | some next => exact ⟨next, rfl⟩
  | none =>
    obtain ⟨d, _, cycle⟩ := loads.leads_to_cycle known found inside absent
    exact absurd ⟨d, cycle⟩ acyclic

theorem schedule_eq_error {s : Loading} {n : Nat} {stuck : List String} (loads : Loads chunks s)
    (failed : schedule chunks n s = .error stuck) :
    ∃ last, Loads chunks last ∧ last.next? chunks = none ∧ last.stuck chunks = stuck ∧
      last.loaded.length < s.loaded.length + n := by
  induction n generalizing s with
  | zero => cases failed
  | succ n ih =>
    unfold schedule at failed
    split at failed
    next c first =>
      obtain ⟨last, later, none, same, shorter⟩ := ih (.next loads first) failed
      have longer : (s.load chunks c).loaded.length = s.loaded.length + 1 := by simp [Loading.load]
      exact ⟨last, later, none, same, by omega⟩
    next none => exact ⟨s, loads, none, Except.error.inj failed, by omega⟩

/-- A chunk that was loaded requires no chunk that requires it. -/
theorem Loads.idxOf_lt {s : Loading} (loads : Loads chunks s) {a b : ChunkId} (member : a ∈ s.loaded)
    (requires : Relation.TransGen (Needs chunks) a b) :
    b ∈ s.loaded ∧ s.loaded.idxOf b < s.loaded.idxOf a := by
  induction requires with
  | single needs => exact loads.before needs member
  | tail _ needs ih =>
    obtain ⟨there, earlier⟩ := ih
    obtain ⟨further, before⟩ := loads.before needs there
    exact ⟨further, by omega⟩

/-! ### The graph -/

/-- The state in which a chunk of the order was the next one. -/
theorem Loads.exists_before {s : Loading} (loads : Loads chunks s) {before after : List ChunkId}
    {c : ChunkId} (split : s.loaded = before ++ c :: after) :
    ∃ t, Loads chunks t ∧ t.loaded = before ∧ t.next? chunks = some c := by
  induction loads generalizing after with
  | start => simp [Loading.start] at split
  | @next s d earlier first ih =>
    change s.loaded ++ [d] = before ++ c :: after at split
    rcases List.eq_nil_or_concat after with rfl | ⟨after, last, rfl⟩
    · obtain ⟨rfl, rfl⟩ := List.append_singleton_inj.mp split
      exact ⟨s, earlier, rfl, first⟩
    · rw [List.concat_eq_append, ← List.cons_append, ← List.append_assoc] at split
      exact ih (List.append_inj_left' split rfl)

/-- The next chunk is the first that can follow those that are loaded. -/
theorem Loads.next_canFollow {s : Loading} (loads : Loads chunks s)
    (length : chunks.length = declarations.length)
    (needs : ∀ a b, Needs chunks a b ↔ Declares declarations a b) {c : ChunkId}
    (first : s.next? chunks = some c) :
    CanFollow declarations s.loaded c ∧
      ∀ d, CanFollow declarations s.loaded d → c.index ≤ d.index := by
  obtain ⟨absent, known, ready⟩ := loads.ready first
  refine ⟨⟨length ▸ known, absent, fun b declares => ready b ((needs c b).mpr declares)⟩, ?_⟩
  intro d follows
  by_contra earlier
  -- An earlier chunk was passed over, so it was loaded or misses something.
  obtain ⟨_, i, inside, here, passed⟩ := List.find?_eq_some_iff_getElem.mp first
  have number : ∀ j (small : j < (ids chunks).length), (ids chunks)[j] = ⟨j⟩ := by simp [ids]
  obtain rfl : (⟨i⟩ : ChunkId) = c := (number i inside).symm.trans here
  have before : d.index < i := Nat.not_le.mp earlier
  have tested := passed d.index before
  rw [number d.index (by omega)] at tested
  have zero : s.missingOf d = 0 :=
    (loads.missingOf_eq_zero_iff d).mpr fun b needed => follows.ready b ((needs d b).mp needed)
  simp [follows.absent, zero] at tested

theorem isGraphOf_of_loads {s : Loading} (nodup : (declarations.map (·.name)).Nodup)
    (resolved : resolveAll (declarations.map (·.name)) declarations = .ok chunks)
    (loads : Loads chunks s) (length : s.loaded.length = chunks.length)
    (coherent : Coherent ⟨chunks.toArray, s.loaded, reachTable chunks s.loaded⟩) :
    IsGraphOf declarations ⟨chunks.toArray, s.loaded, reachTable chunks s.loaded⟩ := by
  have sizes := length_of_resolved resolved
  have needs := needs_iff_declares nodup resolved
  have all : s.loaded.Perm ((List.range declarations.length).map ChunkId.mk) := by
    rw [← sizes]
    exact loads.perm length
  have member : ∀ c, c ∈ s.loaded ↔ c.index < declarations.length := fun c => by
    rw [← sizes, ← mem_ids]
    exact all.mem_iff.trans (by rw [ids, sizes])
  constructor
  case name =>
    intro c
    have names := congrArg (fun names : List String => names[c.index]?) (resolveAll_eq_ok resolved).1
    simpa [name?] using names
  case dependencies => exact needs
  case permutation => exact all
  case follows =>
    intro a b declares
    have loaded := (member a).mpr declares.index_lt.1
    obtain ⟨there, earlier⟩ := loads.before ((needs a b).mpr declares) loaded
    exact ⟨_, _, (rank?_eq_some_iff b _).mpr ⟨there, rfl⟩, (rank?_eq_some_iff a _).mpr ⟨loaded, rfl⟩,
      earlier⟩
  case greedy =>
    intro before c after split
    obtain ⟨t, earlier, rfl, first⟩ := loads.exists_before split
    exact earlier.next_canFollow sizes needs first
  case rank =>
    intro c k
    rw [rank?_eq_some_iff]
    constructor
    · rintro ⟨loaded, rfl⟩
      exact List.getElem?_idxOf loaded
    · intro found
      obtain ⟨inside, rfl⟩ := List.getElem?_eq_some_iff.mp found
      exact ⟨List.getElem_mem inside, loads.nodup.idxOf_getElem k inside⟩
  case dependsOn =>
    intro a b
    have same : Relation.ReflTransGen (Needs chunks) a b ↔
        Relation.ReflTransGen (Declares declarations) a b := by
      rw [needs_eq_declares nodup resolved]
    rw [coherent.dependsOn_iff]
    constructor
    · rintro ⟨loaded, reaches⟩
      have there := (coherent.idxOf_le loaded reaches).1
      exact ⟨(member a).mp loaded, (member b).mp there, same.mp reaches⟩
    · rintro ⟨inside, _, reaches⟩
      exact ⟨(member a).mpr inside, same.mpr reaches⟩

/-! ### All answers -/

theorem build_of_repeat {name : String} (first : IsFirstRepeat (declarations.map (·.name)) name) :
    build declarations = .error (.duplicate name) := by
  have found := (firstDuplicate?_eq_some_iff name).mpr first
  cases declarations with
  | nil => cases found
  | cons d declarations => simp only [build, List.isEmpty_cons, Bool.false_eq_true, if_false, found]

theorem build_of_unknown (nodup : (declarations.map (·.name)).Nodup) {chunk dependency : String}
    (first : IsFirstUnknown (declarations.map (·.name)) declarations chunk dependency) :
    build declarations = .error (.unknownDependency chunk dependency) := by
  have failed := (resolveAll_eq_error_iff _).mpr ⟨_, _, rfl, first⟩
  cases declarations with
  | nil => cases failed
  | cons d declarations =>
    simp only [build, List.isEmpty_cons, Bool.false_eq_true, if_false,
      firstDuplicate?_eq_none_iff.mpr nodup, failed]

/-- What is built of distinct names and known dependencies. -/
theorem build_of_resolved (some : declarations ≠ []) (nodup : (declarations.map (·.name)).Nodup)
    (resolved : resolveAll (declarations.map (·.name)) declarations = .ok chunks) :
    build declarations =
      match schedule chunks chunks.length (Loading.start chunks) with
      | .error stuck => .error (.cycle stuck)
      | .ok order => .ok ⟨chunks.toArray, order, reachTable chunks order⟩ := by
  cases declarations with
  | nil => exact absurd rfl some
  | cons d declarations =>
    have noRepeat := firstDuplicate?_eq_none_iff.mpr nodup
    cases ordered : schedule chunks chunks.length (Loading.start chunks) <;>
      simp only [build, List.isEmpty_cons, Bool.false_eq_true, if_false, noRepeat, resolved, ordered]

/-- Without a cycle there is an order, and with one there is none. -/
theorem schedule_eq_error_iff (nodup : (declarations.map (·.name)).Nodup)
    (resolved : resolveAll (declarations.map (·.name)) declarations = .ok chunks) :
    (∃ stuck, schedule chunks chunks.length (Loading.start chunks) = .error stuck) ↔
      HasCycle declarations := by
  have needs := needs_iff_declares nodup resolved
  have same : Relation.TransGen (Needs chunks) = Relation.TransGen (Declares declarations) := by
    rw [needs_eq_declares nodup resolved]
  have known : ∀ a b, Needs chunks a b → a.index < chunks.length ∧ b.index < chunks.length := by
    intro a b needed
    rw [length_of_resolved resolved]
    exact ((needs a b).mp needed).index_lt
  rw [HasCycle, ← same]
  constructor
  · rintro ⟨stuck, failed⟩
    by_contra acyclic
    obtain ⟨last, loads, none, _, shorter⟩ := schedule_eq_error .start failed
    have unfinished : last.loaded.length < chunks.length := by
      simpa [Loading.start] using shorter
    obtain ⟨c, some⟩ :=
      loads.exists_next (fun a b needed => (known a b needed).2) acyclic unfinished
    cases none.symm.trans some
  · rintro ⟨c, cycle⟩
    cases scheduled : schedule chunks chunks.length (Loading.start chunks) with
    | error stuck => exact ⟨stuck, rfl⟩
    | ok order =>
      obtain ⟨last, loads, rfl, length⟩ := loads_schedule .start scheduled
      obtain ⟨b, first, _⟩ := Relation.TransGen.head'_iff.mp cycle
      have all := loads.perm (by simpa [Loading.start] using length)
      have member : c ∈ last.loaded := all.mem_iff.mpr (mem_ids.mpr (known c b first).1)
      exact absurd (loads.idxOf_lt member cycle).2 (Nat.lt_irrefl _)

theorem IsFirstUnknown.not_known {chunk dependency : String}
    (first : IsFirstUnknown names declarations chunk dependency) :
    ¬ ∀ d ∈ declarations, d.dependencies ⊆ names := by
  obtain ⟨before, d, after, rfl, _, _, front, others, split, _, absent⟩ := first
  intro known
  refine absent (known d (List.mem_append_right before List.mem_cons_self) ?_)
  exact split ▸ List.mem_append_right front List.mem_cons_self

theorem not_hasCycle_nil : ¬ HasCycle [] := by
  rintro ⟨c, cycle⟩
  obtain ⟨b, declares, _⟩ := Relation.TransGen.head'_iff.mp cycle
  exact Nat.not_lt_zero _ declares.index_lt.1

/-- How declarations are when there is an answer. -/
theorem build_cases (declarations : List ChunkDeclaration) :
    (build declarations = .error .noChunks ∧ declarations = []) ∨
    (∃ name, build declarations = .error (.duplicate name) ∧
      IsFirstRepeat (declarations.map (·.name)) name) ∨
    (∃ chunk dependency, build declarations = .error (.unknownDependency chunk dependency) ∧
      (declarations.map (·.name)).Nodup ∧
      IsFirstUnknown (declarations.map (·.name)) declarations chunk dependency) ∨
    (∃ stuck, build declarations = .error (.cycle stuck) ∧ (declarations.map (·.name)).Nodup ∧
      (∀ d ∈ declarations, d.dependencies ⊆ declarations.map (·.name)) ∧ HasCycle declarations) ∨
    (∃ g, build declarations = .ok g ∧ declarations ≠ [] ∧ (declarations.map (·.name)).Nodup ∧
      (∀ d ∈ declarations, d.dependencies ⊆ declarations.map (·.name)) ∧
      ¬ HasCycle declarations) := by
  by_cases empty : declarations = []
  · exact .inl ⟨by rw [empty]; rfl, empty⟩
  cases repeated : firstDuplicate? [] (declarations.map (·.name)) with
  | some name =>
    have first := (firstDuplicate?_eq_some_iff name).mp repeated
    exact .inr (.inl ⟨name, build_of_repeat first, first⟩)
  | none =>
    have nodup := firstDuplicate?_eq_none_iff.mp repeated
    cases resolved : resolveAll (declarations.map (·.name)) declarations with
    | error e =>
      obtain ⟨chunk, dependency, rfl, first⟩ := (resolveAll_eq_error_iff e).mp resolved
      exact .inr (.inr (.inl ⟨chunk, dependency, build_of_unknown nodup first, nodup, first⟩))
    | ok chunks =>
      have known := (resolveAll_eq_ok resolved).2
      have answer := build_of_resolved empty nodup resolved
      have cyclic := schedule_eq_error_iff nodup resolved
      cases scheduled : schedule chunks chunks.length (Loading.start chunks) with
      | error stuck =>
        rw [scheduled] at answer
        have cycle := cyclic.mp ⟨stuck, scheduled⟩
        exact .inr (.inr (.inr (.inl ⟨stuck, answer, nodup, known, cycle⟩)))
      | ok order =>
        rw [scheduled] at answer
        have acyclic : ¬ HasCycle declarations := fun cycle => by
          obtain ⟨stuck, failed⟩ := cyclic.mpr cycle
          cases scheduled.symm.trans failed
        exact .inr (.inr (.inr (.inr ⟨_, answer, empty, nodup, known, acyclic⟩)))

/-- Distinct names, known dependencies and no cycle make a graph. -/
theorem exists_build (some : declarations ≠ []) (nodup : (declarations.map (·.name)).Nodup)
    (known : ∀ d ∈ declarations, d.dependencies ⊆ declarations.map (·.name))
    (acyclic : ¬ HasCycle declarations) : ∃ g, build declarations = .ok g := by
  rcases build_cases declarations with ⟨_, none⟩ | ⟨_, _, first⟩ | ⟨_, _, _, _, first⟩ |
    ⟨_, _, _, _, cycle⟩ | ⟨g, answer, _⟩
  · exact absurd none some
  · exact absurd nodup first.not_nodup
  · exact absurd known first.not_known
  · exact absurd cycle acyclic
  · exact ⟨g, answer⟩

theorem isGraphOf_build {g : ChunkGraph} (built : build declarations = .ok g) :
    IsGraphOf declarations g := by
  have coherent := build_coherent built
  obtain ⟨chunks, order, distinct, resolved, scheduled, rfl⟩ := build_eq_ok built
  obtain ⟨last, loads, rfl, length⟩ := loads_schedule .start scheduled
  have nodup := firstDuplicate?_eq_none_iff.mp distinct
  exact isGraphOf_of_loads nodup resolved loads (by simpa [Loading.start] using length) coherent

end

/-- What becomes of all declarations there are. -/
theorem build_answers (declarations : List ChunkDeclaration) : BuildAnswers declarations := by
  constructor
  case noChunks =>
    constructor
    · intro failed
      rcases build_cases declarations with ⟨_, empty⟩ | ⟨_, answer, _⟩ | ⟨_, _, answer, _⟩ |
        ⟨_, answer, _⟩ | ⟨_, answer, _⟩
      · exact empty
      all_goals cases answer.symm.trans failed
    · rintro rfl
      rfl
  case duplicate =>
    refine fun name => ⟨fun failed => ?_, build_of_repeat⟩
    rcases build_cases declarations with ⟨answer, _⟩ | ⟨_, answer, first⟩ | ⟨_, _, answer, _⟩ |
      ⟨_, answer, _⟩ | ⟨_, answer, _⟩ <;> cases answer.symm.trans failed
    exact first
  case unknownDependency =>
    refine fun chunk dependency => ⟨fun failed => ?_, fun ⟨nodup, first⟩ =>
      build_of_unknown nodup first⟩
    rcases build_cases declarations with ⟨answer, _⟩ | ⟨_, answer, _⟩ |
      ⟨_, _, answer, nodup, first⟩ | ⟨_, answer, _⟩ | ⟨_, answer, _⟩ <;>
      cases answer.symm.trans failed
    exact ⟨nodup, first⟩
  case cycle =>
    constructor
    · rintro ⟨stuck, failed⟩
      rcases build_cases declarations with ⟨answer, _⟩ | ⟨_, answer, _⟩ | ⟨_, _, answer, _⟩ |
        ⟨_, answer, cyclic⟩ | ⟨_, answer, _⟩ <;> cases answer.symm.trans failed
      exact cyclic
    · rintro ⟨nodup, known, cycle⟩
      rcases build_cases declarations with ⟨_, rfl⟩ | ⟨_, _, first⟩ | ⟨_, _, _, _, first⟩ |
        ⟨stuck, answer, _⟩ | ⟨_, _, _, _, _, acyclic⟩
      · exact absurd cycle not_hasCycle_nil
      · exact absurd nodup first.not_nodup
      · exact absurd known first.not_known
      · exact ⟨stuck, answer⟩
      · exact absurd cycle acyclic
  case graph =>
    constructor
    · rintro ⟨g, built⟩
      rcases build_cases declarations with ⟨answer, _⟩ | ⟨_, answer, _⟩ | ⟨_, _, answer, _⟩ |
        ⟨_, answer, _⟩ | ⟨_, answer, acyclic⟩ <;> cases answer.symm.trans built
      exact acyclic
    · rintro ⟨some, nodup, known, acyclic⟩
      exact exists_build some nodup known acyclic
  case isGraphOf => exact fun g => isGraphOf_build
  case counters => exact fun chunks s next _ loads first => loads.count_dependents_le first

end NameAudit.ChunkGraph
