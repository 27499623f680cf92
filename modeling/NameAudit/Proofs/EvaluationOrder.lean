import NameAudit.Proofs.Assembly
import NameAudit.Proofs.Build
import NameAudit.Proofs.Inside

/-!
The order of evaluation follows the loading order. The walk goes through the environment, then through
the chunks by their ranks, and through the files of each in the order in which they were added, and no
site leaves the file that it is part of. So the sites of a program are sorted by where they stand
(`sites_sorted`), its references are sorted with them, and their numbers are the order of evaluation.
-/
namespace NameAudit

/-- A part of a program is loaded no later than another: the environment is first, and the chunks
    follow by their ranks. -/
def Slot.LoadedBy (g : ChunkGraph) : Slot → Slot → Prop
  | .externs, _ => True
  | .chunk _, .externs => False
  | .chunk a, .chunk b => ∃ i j, g.rank? a = some i ∧ g.rank? b = some j ∧ i ≤ j

/-- A place is loaded no later than another, given the parts and the files of both. -/
structure LoadedBy (g : ChunkGraph) (slot slot' : Slot) (file file' : FileId) : Prop where
  slots : slot.LoadedBy g slot'
  files : slot = slot' → file.index ≤ file'.index

/-- A site stands no later than another. -/
def Site.LoadedBy (g : ChunkGraph) (s t : Site) : Prop :=
  NameAudit.LoadedBy g s.around.slot t.around.slot s.around.file t.around.file

/-- A reference stands no later than another. -/
def Ref.LoadedBy (g : ChunkGraph) (r q : Ref) : Prop :=
  NameAudit.LoadedBy g r.position.slot q.position.slot r.position.place.file q.position.place.file

/-- The parts of a program that are loaded. -/
def Slot.IsLoaded (g : ChunkGraph) : Slot → Prop
  | .externs => True
  | .chunk c => c ∈ g.order

/-- The files of a part of a program. -/
def Program.filesOf (p : Program) : Slot → List SourceFile
  | .externs => p.externs
  | .chunk c => p.sources c

/-- A file is one of a part of a program that is loaded. -/
structure Program.Loads (p : Program) (slot : Slot) (file : FileId) : Prop where
  isLoaded : slot.IsLoaded p.graph
  isFile : ∃ source ∈ p.filesOf slot, source.id = file

/-- References are evaluated in the order in which the parts of the program are loaded. -/
structure FollowsLoading (p : Program) (ns : Namespace) : Prop where
  /-- Each reference stands in a file of the environment or of a chunk that has a rank. -/
  loads : ∀ i, ns.HasRef i → p.Loads (ns.ref i).position.slot (ns.ref i).position.place.file
  slots : ∀ i j, ns.HasRef i → ns.HasRef j →
    (ns.ref i).position.order < (ns.ref j).position.order →
    (ns.ref i).position.slot.LoadedBy p.graph (ns.ref j).position.slot
  /-- Files are numbered in the order in which they were added. -/
  files : ∀ i j, ns.HasRef i → ns.HasRef j →
    (ns.ref i).position.order < (ns.ref j).position.order →
    (ns.ref i).position.slot = (ns.ref j).position.slot →
    (ns.ref i).position.place.file.index ≤ (ns.ref j).position.place.file.index
  /-- What a chunk depends on, directly or not, is evaluated before it. -/
  dependencies : ∀ a b, a ≠ b → Relation.ReflTransGen p.graph.DependsDirectly b a →
    ∀ i j, ns.HasRef i → ns.HasRef j → (ns.ref i).position.slot = .chunk a →
      (ns.ref j).position.slot = .chunk b →
      (ns.ref i).position.order < (ns.ref j).position.order
  environment : ∀ i j c, ns.HasRef i → ns.HasRef j → (ns.ref i).position.slot = .externs →
    (ns.ref j).position.slot = .chunk c →
    (ns.ref i).position.order < (ns.ref j).position.order

section
variable {g : ChunkGraph}

theorem Slot.IsLoaded.loadedBy_self {slot : Slot} (loaded : slot.IsLoaded g) :
    slot.LoadedBy g slot := by
  cases slot with
  | externs => exact trivial
  | chunk c =>
    have rank := (ChunkGraph.rank?_eq_some_iff c _).mpr ⟨loaded, rfl⟩
    exact ⟨_, _, rank, rank, Nat.le_refl _⟩

/-- Chunks that stand in the order one after the other have increasing ranks. -/
theorem ChunkGraph.Coherent.order_sorted (coherent : g.Coherent) :
    g.order.Pairwise fun a b =>
      a ≠ b ∧ (Slot.chunk a).LoadedBy g (.chunk b) := by
  rw [List.pairwise_iff_getElem]
  intro i j insideI insideJ before
  have rank : ∀ k (inside : k < g.order.length), g.rank? g.order[k] = some k := fun k inside =>
    (ChunkGraph.rank?_eq_some_iff _ k).mpr
      ⟨List.getElem_mem inside, coherent.nodup.idxOf_getElem k inside⟩
  refine ⟨fun same => ?_, i, j, rank i insideI, rank j insideJ, Nat.le_of_lt before⟩
  exact Nat.ne_of_lt before ((List.Nodup.getElem_inj_iff coherent.nodup).mp same)

/-! ### The sites of a program -/

theorem SourceFile.sites_inside (slot : Slot) (source : SourceFile) :
    AllInside ⟨slot, source.id, []⟩ (source.sites slot) :=
  (Stmt.functionSites_inside _ _).append (Stmt.sitesOf_inside _ _)

/-- What stands in a file stands no later than what stands in one with no smaller number. -/
theorem SourceFile.loadedBy {slot : Slot} (loaded : slot.IsLoaded g) {first second : SourceFile}
    (notLater : first.id.index ≤ second.id.index) {s t : Site} (memberS : s ∈ first.sites slot)
    (memberT : t ∈ second.sites slot) : s.LoadedBy g t := by
  have insideS := first.sites_inside slot s memberS
  have insideT := second.sites_inside slot t memberT
  rw [Site.LoadedBy, insideS.slot, insideT.slot, insideS.file, insideT.file]
  exact ⟨loaded.loadedBy_self, fun _ => notLater⟩

theorem files_sorted {files : FileTable} {slot : Slot} {sources : List SourceFile}
    (numbers : files.Numbers sources) (loaded : slot.IsLoaded g) :
    (sources.flatMap (·.sites slot)).Pairwise (Site.LoadedBy g) := by
  rw [List.pairwise_flatMap]
  constructor
  · intro source _
    refine List.pairwise_of_forall_mem_list fun s memberS t memberT => ?_
    exact SourceFile.loadedBy loaded (Nat.le_refl _) memberS memberT
  · refine numbers.increasing.imp fun {first second} smaller s memberS t memberT => ?_
    exact SourceFile.loadedBy loaded (Nat.le_of_lt smaller) memberS memberT

theorem slot_of_mem_files {slot : Slot} {sources : List SourceFile} {s : Site}
    (member : s ∈ sources.flatMap (·.sites slot)) : s.around.slot = slot := by
  obtain ⟨source, _, here⟩ := List.mem_flatMap.mp member
  exact (source.sites_inside slot s here).slot

theorem loads_of_mem_files {p : Program} {slot : Slot} (loaded : slot.IsLoaded p.graph) {s : Site}
    (member : s ∈ (p.filesOf slot).flatMap (·.sites slot)) :
    p.Loads s.around.slot s.around.file := by
  obtain ⟨source, isFile, here⟩ := List.mem_flatMap.mp member
  have inside := source.sites_inside slot s here
  rw [inside.slot, inside.file]
  exact ⟨loaded, source, isFile, rfl⟩

theorem loads_of_mem_sites {p : Program} {s : Site} (member : s ∈ p.sites) :
    p.Loads s.around.slot s.around.file := by
  have environment : Slot.externs.IsLoaded p.graph := trivial
  rcases List.mem_append.mp member with first | later
  · exact loads_of_mem_files environment first
  · obtain ⟨c, loaded, here⟩ := List.mem_flatMap.mp later
    have isLoaded : (Slot.chunk c).IsLoaded p.graph := loaded
    exact loads_of_mem_files isLoaded here

theorem sites_sorted {p : Program} (coherent : p.graph.Coherent) (numbered : p.Numbered) :
    p.sites.Pairwise (Site.LoadedBy p.graph) := by
  have chunks : (p.graph.order.flatMap fun c => (p.sources c).flatMap (·.sites (.chunk c))).Pairwise
      (Site.LoadedBy p.graph) := by
    rw [List.pairwise_flatMap]
    refine ⟨fun c loaded => files_sorted (numbered.sources c) loaded, ?_⟩
    refine coherent.order_sorted.imp fun {a b} ⟨different, before⟩ s memberS t memberT => ?_
    rw [Site.LoadedBy, slot_of_mem_files memberS, slot_of_mem_files memberT]
    exact ⟨before, fun same => absurd (Slot.chunk.inj same) different⟩
  have environment : Slot.externs.IsLoaded p.graph := trivial
  rw [Program.sites, List.pairwise_append]
  refine ⟨files_sorted numbered.externs environment, chunks, ?_⟩
  intro s environment t later
  obtain ⟨c, _, memberT⟩ := List.mem_flatMap.mp later
  rw [Site.LoadedBy, slot_of_mem_files environment, slot_of_mem_files memberT]
  exact ⟨trivial, fun same => nomatch same⟩

/-! ### The references of a program -/

theorem Site.Records.standsAt {ns : Namespace} {site : Site} {refs : List Ref}
    (records : site.Records ns refs) {r : Ref} (member : r ∈ refs) :
    r.StandsAt site.around site.span := by
  cases site with
  | occurrence a span o =>
    simp only [Site.Records] at records
    split at records
    next =>
      split at records
      next =>
        obtain ⟨first, second, rfl, atFirst, atSecond, _⟩ := records
        rcases List.mem_cons.mp member with rfl | last
        · exact atFirst
        · exact List.mem_singleton.mp last ▸ atSecond
      next =>
        obtain ⟨r, rfl, stands, _⟩ := records
        exact List.mem_singleton.mp member ▸ stands
    next =>
      rw [records] at member
      cases member
  | definition a span base =>
    rcases records with rfl | ⟨r, rfl, stands, _⟩
    · cases member
    · exact List.mem_singleton.mp member ▸ stands

theorem Ref.StandsAt.loadedBy {r q : Ref} {s t : Site} {spanR spanQ : Span}
    (first : r.StandsAt s.around spanR) (second : q.StandsAt t.around spanQ)
    (before : s.LoadedBy g t) : r.LoadedBy g q := by
  rw [Ref.LoadedBy, first.slot, second.slot, first.place, second.place]
  exact before

theorem Accounts.exists_site {ns : Namespace} {sites : List Site} {refs : List Ref}
    (accounts : Accounts ns sites refs) {r : Ref} (member : r ∈ refs) :
    ∃ s ∈ sites, r.StandsAt s.around s.span := by
  obtain ⟨parts, recorded, rfl⟩ := accounts
  induction recorded with
  | nil => cases member
  | @cons s refs sites parts records _ ih =>
    rw [List.flatten_cons] at member
    rcases List.mem_append.mp member with here | later
    · exact ⟨s, List.mem_cons_self, records.standsAt here⟩
    · obtain ⟨t, memberT, stands⟩ := ih later
      exact ⟨t, List.mem_cons_of_mem s memberT, stands⟩

/-- References are sorted as their sites are; those of one site stand at one place. -/
theorem Accounts.sorted {ns : Namespace} {sites : List Site} {refs : List Ref}
    (accounts : Accounts ns sites refs) (loaded : ∀ s ∈ sites, s.around.slot.IsLoaded g)
    (sorted : sites.Pairwise (Site.LoadedBy g)) : refs.Pairwise (Ref.LoadedBy g) := by
  obtain ⟨parts, recorded, rfl⟩ := accounts
  induction recorded with
  | nil => exact .nil
  | @cons s refs sites parts records recorded ih =>
    obtain ⟨before, rest⟩ := List.pairwise_cons.mp sorted
    have self : s.LoadedBy g s :=
      ⟨(loaded s List.mem_cons_self).loadedBy_self, fun _ => Nat.le_refl _⟩
    rw [List.flatten_cons, List.pairwise_append]
    refine ⟨?_, ih (fun t member => loaded t (List.mem_cons_of_mem s member)) rest, ?_⟩
    · refine List.pairwise_of_forall_mem_list fun r memberR q memberQ => ?_
      exact (records.standsAt memberR).loadedBy (records.standsAt memberQ) self
    · intro r memberR q memberQ
      have later : Accounts ns sites parts.flatten := ⟨parts, recorded, rfl⟩
      obtain ⟨t, memberT, standsQ⟩ := later.exists_site memberQ
      exact (records.standsAt memberR).loadedBy standsQ (before t memberT)

namespace Namespace

theorem ofProgram_accounts (p : Program) :
    Accounts (ofProgram p) p.sites (ofProgram p).refs.toList := by
  obtain ⟨_, _, refs, added, parts, recorded, rfl⟩ :=
    Record.program_covers p _ Record.starts_between_files
  exact ⟨parts, recorded, added⟩

theorem getElem?_refs {ns : Namespace} {i : RefId} (has : ns.HasRef i) :
    ns.refs.toList[i.index]? = some (ns.ref i) := by
  have inside : i.index < ns.refs.size := has
  simp [ref, inside]

/-- A reference of a program stands in a file of the environment or of a chunk of the order. -/
theorem ofProgram_loads (p : Program) {i : RefId} (has : (ofProgram p).HasRef i) :
    p.Loads ((ofProgram p).ref i).position.slot ((ofProgram p).ref i).position.place.file := by
  have member := List.mem_of_getElem? (getElem?_refs has)
  obtain ⟨s, memberS, stands⟩ := (ofProgram_accounts p).exists_site member
  rw [stands.slot, stands.place]
  exact loads_of_mem_sites memberS

section
variable {p : Program} {i j : RefId}

theorem ofProgram_sorted (coherent : p.graph.Coherent) (numbered : p.Numbered)
    (hasI : (ofProgram p).HasRef i) (hasJ : (ofProgram p).HasRef j)
    (before : ((ofProgram p).ref i).position.order < ((ofProgram p).ref j).position.order) :
    ((ofProgram p).ref i).LoadedBy p.graph ((ofProgram p).ref j) := by
  have tallied := ofProgram_tallied p
  rw [tallied.order_eq i hasI, tallied.order_eq j hasJ] at before
  have sorted := (ofProgram_accounts p).sorted (fun _ member => (loads_of_mem_sites member).isLoaded)
    (sites_sorted coherent numbered)
  obtain ⟨insideI, atI⟩ := List.getElem?_eq_some_iff.mp (getElem?_refs hasI)
  obtain ⟨insideJ, atJ⟩ := List.getElem?_eq_some_iff.mp (getElem?_refs hasJ)
  rw [← atI, ← atJ]
  exact List.pairwise_iff_getElem.mp sorted i.index j.index insideI insideJ before

/-- A reference in a part that is loaded later than that of another is evaluated later. -/
theorem ofProgram_earlier (coherent : p.graph.Coherent) (numbered : p.Numbered)
    (hasI : (ofProgram p).HasRef i) (hasJ : (ofProgram p).HasRef j)
    (notBack : ¬ ((ofProgram p).ref j).position.slot.LoadedBy p.graph
      ((ofProgram p).ref i).position.slot) :
    ((ofProgram p).ref i).position.order < ((ofProgram p).ref j).position.order := by
  by_contra notEarlier
  rcases Nat.lt_or_eq_of_le (Nat.not_lt.mp notEarlier) with later | same
  · exact notBack (ofProgram_sorted coherent numbered hasJ hasI later).slots
  · have tallied := ofProgram_tallied p
    rw [tallied.order_eq i hasI, tallied.order_eq j hasJ] at same
    obtain rfl : j = i := RefId.ext same
    exact notBack (ofProgram_loads p hasJ).isLoaded.loadedBy_self

end
end Namespace

/-- What a chunk depends on is loaded before it, so never after it. -/
theorem ChunkGraph.Coherent.not_loadedBy (coherent : g.Coherent) {a b : ChunkId} (different : a ≠ b)
    (loaded : b ∈ g.order) (depends : Relation.ReflTransGen g.DependsDirectly b a) :
    ¬ (Slot.chunk b).LoadedBy g (.chunk a) := by
  rintro ⟨i, j, rankB, rankA, notLater⟩
  obtain ⟨_, rfl⟩ := (ChunkGraph.rank?_eq_some_iff b i).mp rankB
  obtain ⟨memberA, rfl⟩ := (ChunkGraph.rank?_eq_some_iff a j).mp rankA
  have before := (coherent.idxOf_le loaded depends).2
  exact different ((List.idxOf_inj memberA).mp (Nat.le_antisymm before notLater))

/-- In every program that came about by adding files, the order of evaluation follows the order in
    which the parts of the program are loaded. -/
theorem Program.Assembled.follows_loading {p : Program} (assembled : p.Assembled) :
    FollowsLoading p (Namespace.ofProgram p) := by
  obtain ⟨declarations, built⟩ := assembled.built
  have coherent := ChunkGraph.build_coherent built
  have numbered := assembled.numbered
  refine ⟨fun i has => Namespace.ofProgram_loads p has, ?_, ?_, ?_, ?_⟩
  · intro i j hasI hasJ before
    exact (Namespace.ofProgram_sorted coherent numbered hasI hasJ before).slots
  · intro i j hasI hasJ before
    exact (Namespace.ofProgram_sorted coherent numbered hasI hasJ before).files
  · intro a b different depends i j hasI hasJ inA inB
    refine Namespace.ofProgram_earlier coherent numbered hasI hasJ ?_
    have loaded := (Namespace.ofProgram_loads p hasJ).isLoaded
    rw [inB] at loaded
    rw [inA, inB]
    exact coherent.not_loadedBy different loaded depends
  · intro i j c hasI hasJ environment inChunk
    refine Namespace.ofProgram_earlier coherent numbered hasI hasJ ?_
    rw [environment, inChunk]
    exact id

/-- The file of the later chunk is added first, and the environment is described between the two. -/
theorem follows_loading_later_chunk_first :
    ∃ p : Program, p.Assembled ∧ FollowsLoading p (Namespace.ofProgram p) ∧
      (Namespace.ofProgram p).refs.toList.map (fun r => (r.position.slot, r.position.place.file)) =
        [(.externs, ⟨1⟩), (.chunk ⟨0⟩, ⟨2⟩), (.chunk ⟨0⟩, ⟨2⟩), (.chunk ⟨1⟩, ⟨0⟩)] := by
  have built : ChunkGraph.build [⟨"base", []⟩, ⟨"app", ["base"]⟩] =
      .ok ⟨#[⟨"base", []⟩, ⟨"app", [⟨0⟩]⟩], [⟨0⟩, ⟨1⟩], #[[⟨0⟩], [⟨1⟩, ⟨0⟩]]⟩ := by rfl
  have app := (Program.Assembled.ofGraph built).addSource ⟨1⟩ "app.js" "base.start();"
  have environment := app.addExterns "browser.js" "var window;"
  have assembled := environment.addSource ⟨0⟩ "base.js" "var base = window;"
  exact ⟨_, assembled, assembled.follows_loading, by decide +kernel⟩

end
end NameAudit
