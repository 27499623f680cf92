import NameAudit.Namespace.Basic
import NameAudit.Program
import NameAudit.Proofs.LoadingOrder

/-!
How a program comes about. Files are added one after the other to a program without files, each to the
environment or to a chunk, and some of them in vain. An attempt leaves the program as it was, or adds
the file to the table only, or adds it to the table and last to its part (`attempt`). So the graph never
changes, and the files of each part are numbered in the order in which they were added
(`Assembled.numbered`).
-/
namespace NameAudit

namespace Program

/-- A program that came about by adding files to the parts of a graph. -/
inductive Assembled : Program → Prop
  | ofGraph {declarations : List ChunkDeclaration} {graph : ChunkGraph}
      (built : ChunkGraph.build declarations = .ok graph) : Assembled (ofGraph graph)
  | addExterns {p : Program} (before : Assembled p) (name text : String) :
      Assembled (p.addExterns name text).1
  | addSource {p : Program} (before : Assembled p) (c : ChunkId) (name text : String) :
      Assembled (p.addSource c name text).1

end Program

/-- Files of one part have numbers of the table, in increasing order. -/
structure FileTable.Numbers (files : FileTable) (sources : List SourceFile) : Prop where
  increasing : sources.Pairwise (·.id.index < ·.id.index)
  below : ∀ s ∈ sources, s.id.index < files.size

namespace FileTable

variable {files : FileTable} {sources : List SourceFile}

theorem size_add (files : FileTable) (name text : String) :
    (files.add name text).size = files.size + 1 := by
  simp [add, size]

theorem Numbers.nil (files : FileTable) : files.Numbers [] := ⟨.nil, fun _ member => nomatch member⟩

theorem Numbers.add (numbers : files.Numbers sources) (name text : String) :
    (files.add name text).Numbers sources := by
  refine ⟨numbers.increasing, fun s member => ?_⟩
  have old := numbers.below s member
  rw [size_add]
  omega

/-- The file with the next number comes last. -/
theorem Numbers.addLast (numbers : files.Numbers sources) {source : SourceFile}
    (new : source.id = files.nextId) (name text : String) :
    (files.add name text).Numbers (sources ++ [source]) := by
  have number : source.id.index = files.size := congrArg FileId.index new
  constructor
  · rw [List.pairwise_append]
    refine ⟨numbers.increasing, List.pairwise_singleton _ _, fun s old t last => ?_⟩
    rw [List.mem_singleton.mp last, number]
    exact numbers.below s old
  · intro s member
    rw [size_add]
    rcases List.mem_append.mp member with old | last
    · have small := numbers.below s old
      omega
    · rw [List.mem_singleton.mp last, number]
      exact Nat.lt_succ_self _

end FileTable

namespace Program

/-- The files of each part of a program are numbered in the order in which they were added. -/
structure Numbered (p : Program) : Prop where
  externs : p.files.Numbers p.externs
  sources : ∀ c, p.files.Numbers (p.sources c)

/-- A file to be added to a part of a program. -/
structure Addition where
  slot : Slot
  name : String
  text : String
  deriving DecidableEq

/-- Tries to add a file. -/
def add (p : Program) (a : Addition) : Program × Except AddError FileId :=
  match a.slot with
  | .externs => p.addExterns a.name a.text
  | .chunk c => p.addSource c a.name a.text

/-- A program whose table holds one file more. -/
def addFile (p : Program) (name text : String) : Program := { p with files := p.files.add name text }

/-- A program that holds one file more. -/
def append (p : Program) (source : SourceFile) : Slot → Program
  | .externs => { p with externs := p.externs ++ [source] }
  | .chunk c => { p with chunks := p.chunks.modify c.index (· ++ [source]) }

/-- What an attempt to add a file comes to. -/
inductive Attempt (p : Program) (a : Addition) : Program × Except AddError FileId → Prop
  | unknown {c : ChunkId} (slot : a.slot = .chunk c) (foreign : p.graph.name? c = none) :
      Attempt p a (p, .error (.unknownChunk c))
  | failed {e : AddError} (unparsed : (parse a.text).toOption = none)
      (known : ∀ c, e ≠ .unknownChunk c) : Attempt p a (p.addFile a.name a.text, .error e)
  | added {script : Script} (parsed : parse a.text = .ok script)
      (known : ∀ c, a.slot = .chunk c → c.index < p.graph.size) :
      Attempt p a ((p.addFile a.name a.text).append ⟨p.files.nextId, script⟩ a.slot,
        .ok p.files.nextId)

section
variable {p : Program}

/-! ### One attempt to add a file -/

theorem load_cases (p : Program) (name text : String) :
    ((parse text).toOption = none ∧ ∃ e, (∀ c, e ≠ .unknownChunk c) ∧
        p.load name text = (p.addFile name text, .error e)) ∨
      ∃ script, parse text = .ok script ∧
        p.load name text = (p.addFile name text, .ok ⟨p.files.nextId, script⟩) := by
  unfold load
  dsimp only
  split
  next script parsed => exact .inr ⟨script, parsed, rfl⟩
  next e failed =>
    have known : ∀ c, AddError.malformed name (.ofSyntaxError p.files.nextId e) ≠ .unknownChunk c :=
      fun c same => nomatch same
    exact .inl ⟨congrArg Except.toOption failed, _, known, rfl⟩
  next failed =>
    have known : ∀ c, AddError.exhausted name ≠ .unknownChunk c := fun c same => nomatch same
    exact .inl ⟨congrArg Except.toOption failed, _, known, rfl⟩

theorem attempt (p : Program) (a : Addition) : Attempt p a (p.add a) := by
  obtain ⟨slot, name, text⟩ := a
  have loads := p.load_cases name text
  cases slot with
  | externs =>
    show Attempt p _ (p.addExterns name text)
    rcases loads with ⟨unparsed, e, known, failed⟩ | ⟨script, parsed, loaded⟩
    · rw [addExterns, failed]
      exact .failed unparsed known
    · rw [addExterns, loaded]
      exact .added parsed fun c same => nomatch same
  | chunk c =>
    show Attempt p _ (p.addSource c name text)
    rw [addSource]
    split
    next foreign => exact .unknown rfl foreign
    next found =>
      obtain ⟨chunk, inside, _⟩ := Option.map_eq_some_iff.mp found
      rcases loads with ⟨unparsed, e, known, failed⟩ | ⟨script, parsed, loaded⟩
      · rw [failed]
        exact .failed unparsed known
      · rw [loaded]
        refine .added parsed fun d same => ?_
        obtain rfl := Slot.chunk.inj same
        exact (Array.getElem?_eq_some_iff.mp inside).1

/-- A chunk holds one file more if it is the one that the file was added to. -/
theorem sources_append (p : Program) (source : SourceFile) (c d : ChunkId) :
    (p.append source (.chunk c)).sources d =
      if c = d ∧ c.index < p.chunks.size then p.sources d ++ [source] else p.sources d := by
  show ((p.chunks.modify c.index (· ++ [source]))[d.index]?).getD [] = _
  rw [Array.getElem?_modify, sources]
  by_cases here : c = d
  · subst here
    by_cases inside : c.index < p.chunks.size
    · rw [if_pos rfl, if_pos ⟨rfl, inside⟩, Array.getElem?_eq_getElem inside]
      rfl
    · rw [if_pos rfl, if_neg fun both => inside both.2, Array.getElem?_eq_none (Nat.le_of_not_lt inside)]
      rfl
  · have apart : c.index ≠ d.index := fun same => here (congrArg ChunkId.mk same)
    rw [if_neg apart, if_neg fun both => here both.1]

theorem graph_append (p : Program) (source : SourceFile) (slot : Slot) :
    (p.append source slot).graph = p.graph := by
  cases slot <;> rfl

theorem Attempt.graph {a : Addition} {result : Program × Except AddError FileId}
    (attempt : Attempt p a result) : result.1.graph = p.graph := by
  cases attempt with
  | unknown | failed => rfl
  | added => exact graph_append _ _ _

theorem graph_addExterns (p : Program) (name text : String) :
    (p.addExterns name text).1.graph = p.graph :=
  (p.attempt ⟨.externs, name, text⟩).graph

theorem graph_addSource (p : Program) (c : ChunkId) (name text : String) :
    (p.addSource c name text).1.graph = p.graph :=
  (p.attempt ⟨.chunk c, name, text⟩).graph

/-! ### A program that came about -/

theorem numbered_ofGraph (graph : ChunkGraph) : (ofGraph graph).Numbered := by
  refine ⟨.nil _, fun c => ?_⟩
  have none : (ofGraph graph).sources c = [] := by
    simp only [ofGraph, sources, Array.getElem?_replicate]
    split <;> rfl
  rw [none]
  exact .nil _

theorem Numbered.addFile (numbered : p.Numbered) (name text : String) :
    (p.addFile name text).Numbered :=
  ⟨numbered.externs.add name text, fun c => (numbered.sources c).add name text⟩

theorem Attempt.numbered {a : Addition} {result : Program × Except AddError FileId}
    (attempt : Attempt p a result) (numbered : p.Numbered) : result.1.Numbered := by
  cases attempt with
  | unknown => exact numbered
  | failed => exact numbered.addFile a.name a.text
  | @added script parsed known =>
    let source : SourceFile := ⟨p.files.nextId, script⟩
    have listed := numbered.addFile a.name a.text
    obtain ⟨slot, name, text⟩ := a
    cases slot with
    | externs => exact ⟨numbered.externs.addLast rfl name text, listed.sources⟩
    | chunk c =>
      refine ⟨listed.externs, fun d => ?_⟩
      show (p.files.add name text).Numbers
        (((p.addFile name text).append source (.chunk c)).sources d)
      rw [sources_append]
      split
      · exact (numbered.sources d).addLast rfl name text
      · exact listed.sources d

theorem Assembled.numbered (assembled : p.Assembled) : p.Numbered := by
  induction assembled with
  | ofGraph built => exact numbered_ofGraph _
  | @addExterns p before name text ih => exact (p.attempt ⟨.externs, name, text⟩).numbered ih
  | @addSource p before c name text ih => exact (p.attempt ⟨.chunk c, name, text⟩).numbered ih

/-- The graph of a program is the one that it began with, and was built. -/
theorem Assembled.built (assembled : p.Assembled) :
    ∃ declarations, ChunkGraph.build declarations = .ok p.graph := by
  induction assembled with
  | @ofGraph declarations graph built => exact ⟨declarations, built⟩
  | addExterns before name text ih => rwa [graph_addExterns]
  | addSource before c name text ih => rwa [graph_addSource]

end
end Program
end NameAudit
