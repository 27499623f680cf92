import NameAudit.Proofs.Assembly
import NameAudit.Proofs.VeiledChecks
import NameAudit.Proofs.VeiledPrograms

/-!
Attempts to add files, one after the other. A part of a program gains what the texts that were added to
it parse to (`addAll_gains`), and an audit reads nothing else of the attempts: failures, the names of
files and what was tried between two files show in the numbers of files only.
-/
namespace NameAudit

namespace Program

/-- Tries to add one file after the other. -/
def addAll (p : Program) : List Addition → Program
  | [] => p
  | a :: as => (p.add a).1.addAll as

/-- The files among some that are added when all are tried one after the other. -/
def accepted (p : Program) : List Addition → List Addition
  | [] => []
  | a :: as =>
    if (p.add a).2.isOk then a :: (p.add a).1.accepted as else (p.add a).1.accepted as

/-- The texts that are meant for a part. -/
def textsFor (slot : Slot) (as : List Addition) : List String :=
  (as.filter (·.slot = slot)).map (·.text)

/-! ### What the parts hold -/

/-- What some texts parse to. -/
def scripts (texts : List String) : List Script := texts.filterMap fun text => (parse text).toOption

/-- The parts of a program hold what they did in another, and then what more texts parse to. -/
structure Gains (p q : Program) (texts : Slot → List String) : Prop where
  graph : q.graph = p.graph
  size : q.chunks.size = p.chunks.size
  scripts : ∀ slot, (q.filesOf slot).map (·.script) =
    (p.filesOf slot).map (·.script) ++ Program.scripts (texts slot)

section
variable {p q r : Program} {first second : Slot → List String}

theorem Gains.still (graph : q.graph = p.graph) (size : q.chunks.size = p.chunks.size)
    (files : ∀ slot, q.filesOf slot = p.filesOf slot) : Gains p q fun _ => [] :=
  ⟨graph, size, fun slot => by rw [files]; exact (List.append_nil _).symm⟩

theorem Gains.trans (before : Gains p q first) (after : Gains q r second) :
    Gains p r fun slot => first slot ++ second slot := by
  refine ⟨after.graph.trans before.graph, after.size.trans before.size, fun slot => ?_⟩
  rw [after.scripts, before.scripts, List.append_assoc]
  exact congrArg _ List.filterMap_append.symm

theorem filesOf_append (p : Program) (source : SourceFile) {slot : Slot}
    (known : ∀ c, slot = .chunk c → c.index < p.chunks.size) (other : Slot) :
    (p.append source slot).filesOf other =
      p.filesOf other ++ if slot = other then [source] else [] := by
  cases slot with
  | externs =>
    cases other with
    | externs => rfl
    | chunk d => exact (List.append_nil _).symm
  | chunk c =>
    cases other with
    | externs => exact (List.append_nil _).symm
    | chunk d =>
      show (p.append source (.chunk c)).sources d = p.sources d ++ _
      rw [sources_append]
      by_cases here : c = d
      · rw [if_pos ⟨here, known c rfl⟩, if_pos (congrArg Slot.chunk here)]
      · rw [if_neg fun both => here both.1, if_neg fun same => here (Slot.chunk.inj same),
          List.append_nil]

theorem add_gains (sized : p.chunks.size = p.graph.size) (a : Addition) :
    Gains p (p.add a).1 fun slot =>
      if (p.add a).2.isOk ∧ a.slot = slot then [a.text] else [] := by
  have attempt := p.attempt a
  generalize p.add a = result at attempt
  have none : ∀ e : AddError, (fun slot => if (Except.error e : Except AddError FileId).isOk ∧
      a.slot = slot then [a.text] else []) = fun _ => [] :=
    fun e => funext fun slot => if_neg fun both => nomatch both.1
  cases attempt with
  | unknown =>
    rw [none]
    exact .still rfl rfl fun _ => rfl
  | failed =>
    rw [none]
    exact .still rfl rfl fun slot => by cases slot <;> rfl
  | @added script parsed known =>
    have table : ∀ slot, (p.addFile a.name a.text).filesOf slot = p.filesOf slot := fun slot => by
      cases slot <;> rfl
    refine ⟨?_, ?_, fun slot => ?_⟩
    · cases a.slot <;> rfl
    · cases a.slot with
      | externs => rfl
      | chunk c => exact Array.size_modify
    · -- A chunk that the graph knows has a place among the chunks, so the file is not lost.
      have inside : ∀ c, a.slot = .chunk c → c.index < (p.addFile a.name a.text).chunks.size :=
        fun c same => Nat.lt_of_lt_of_eq (known c same) sized.symm
      rw [filesOf_append _ _ inside, table, List.map_append]
      by_cases here : a.slot = slot
      · simp [here, scripts, parsed, Except.toOption, Except.isOk, Except.toBool]
      · simp [here, scripts]

theorem textsFor_accepted (p : Program) (a : Addition) (as : List Addition) (slot : Slot) :
    textsFor slot (p.accepted (a :: as)) =
      (if (p.add a).2.isOk ∧ a.slot = slot then [a.text] else []) ++
        textsFor slot ((p.add a).1.accepted as) := by
  rw [accepted]
  by_cases ok : (p.add a).2.isOk <;> by_cases here : a.slot = slot <;> simp [ok, here, textsFor]

theorem addAll_gains (sized : p.chunks.size = p.graph.size) (as : List Addition) :
    Gains p (p.addAll as) fun slot => textsFor slot (p.accepted as) := by
  induction as generalizing p with
  | nil => exact .still rfl rfl fun _ => rfl
  | cons a as ih =>
    have first := p.add_gains sized a
    have rest := ih (first.size.trans (sized.trans (congrArg _ first.graph.symm)))
    have both := first.trans rest
    rwa [← funext (p.textsFor_accepted a as)] at both

/-- What an attempt that fails leaves. -/
def afterFailure (p : Program) (a : Addition) : AddError → Program
  | .unknownChunk _ => p
  | .malformed _ _ | .exhausted _ => p.addFile a.name a.text

theorem add_of_error {a : Addition} {e : AddError} (failed : (p.add a).2 = .error e) :
    (p.add a).1 = p.afterFailure a e := by
  have attempt := p.attempt a
  generalize p.add a = result at attempt failed
  cases attempt with
  | unknown =>
    obtain rfl := Except.error.inj failed
    rfl
  | @failed e' _ known =>
    obtain rfl := Except.error.inj failed
    cases e' with
    | unknownChunk c => exact absurd rfl (known c)
    | malformed | exhausted => rfl
  | added => cases failed

end
end Program

/-! ### Audits -/

/-- A reference in another file. -/
def Ref.inFile (r : Ref) (file : FileId) : Ref :=
  { r with position := { r.position with place := { r.position.place with file := file } } }

/-- Two audits differ in the numbers of files only. -/
structure Analysis.Alike (a b : Analysis) : Prop where
  names : a.space.names = b.space.names
  roots : a.space.roots = b.space.roots
  size : a.space.refs.size = b.space.refs.size
  refs : ∀ i, a.space.ref i = (b.space.ref i).inFile (a.space.ref i).position.place.file
  findings : a.findings = b.findings

/-- All files look alike. -/
def Veil.overFiles : Veil := ⟨true, false⟩

namespace Namespace

variable {ns ms : Namespace}

theorem ref_of_space (same : Veil.overFiles.space ns = Veil.overFiles.space ms) (i : RefId) :
    ns.ref i = (ms.ref i).inFile (ns.ref i).position.place.file := by
  have hidden : ∀ r : Ref, Veil.overFiles.ref r = r.inFile ⟨0⟩ := fun r => by
    rw [Veil.ref, Veil.exemption, if_neg fun both => nomatch both.1]
    rfl
  have alike : (ns.ref i).inFile ⟨0⟩ = (ms.ref i).inFile ⟨0⟩ := by
    rw [← hidden, ← hidden, ← Veil.ref_space, ← Veil.ref_space, same]
  exact congrArg (·.inFile (ns.ref i).position.place.file) alike

theorem findings_of_space (same : Veil.overFiles.space ns = Veil.overFiles.space ms)
    (forest : ns.Forest) (tallied : ns.Tallied) (otherForest : ms.Forest) (otherTallied : ms.Tallied)
    (graph : ChunkGraph) : ns.findings graph = ms.findings graph := by
  have reports : ns.reports = ms.reports := by
    funext f
    rw [Namespace.reports, Namespace.reports, ref_of_space same]
    rfl
  rw [findings_space (v := Veil.overFiles) forest tallied, same, reports,
    ← findings_space otherForest otherTallied]

/-- The walk of a program reads of each part what its files hold. -/
theorem space_of_scripts {p q : Program} (graph : p.graph = q.graph)
    (scripts : ∀ slot, (p.filesOf slot).map (·.script) = (q.filesOf slot).map (·.script)) :
    Veil.overFiles.space (ofProgram p) = Veil.overFiles.space (ofProgram q) := by
  have hidden : ∀ (r : Program) slot, (r.mapFiles (Veil.overFiles.source id)).filesOf slot =
      ((r.filesOf slot).map (·.script)).map fun s => ⟨⟨0⟩, s.mapDocs id⟩ := by
    intro r slot
    rw [List.map_map]
    cases slot with
    | externs => rfl
    | chunk c => exact r.sources_mapFiles _ c
  have same : ∀ slot, (p.mapFiles (Veil.overFiles.source id)).filesOf slot =
      (q.mapFiles (Veil.overFiles.source id)).filesOf slot := fun slot => by
    rw [hidden, hidden, scripts]
  have fits : Veil.overFiles.Fits id := Veil.fits_id true
  have walks : Record.program (p.mapFiles (Veil.overFiles.source id)) =
      Record.program (q.mapFiles (Veil.overFiles.source id)) :=
    Record.program_congr (congrArg ChunkGraph.order graph) (same .externs) fun c => same (.chunk c)
  rw [← ofProgram_mapFiles fits, ← ofProgram_mapFiles fits, ofProgram, ofProgram, walks]

end Namespace

theorem Analysis.alike_of_scripts {p q : Program} (graph : p.graph = q.graph)
    (scripts : ∀ slot, (p.filesOf slot).map (·.script) = (q.filesOf slot).map (·.script))
    (levels : Levels) : (run p levels).Alike (run q levels) := by
  have same := Namespace.space_of_scripts graph scripts
  refine ⟨?names, ?roots, ?size, Namespace.ref_of_space same, ?findings⟩
  case names => exact (congrArg Namespace.names same :)
  case roots => exact (congrArg Namespace.roots same :)
  case size =>
    have sizes := congrArg (·.refs.size) same
    exact Array.size_map.symm.trans (sizes.trans Array.size_map)
  case findings =>
    show (Namespace.ofProgram p).findings p.graph = (Namespace.ofProgram q).findings q.graph
    rw [graph]
    exact Namespace.findings_of_space same (Namespace.ofProgram_forest p)
      (Namespace.ofProgram_tallied p) (Namespace.ofProgram_forest q) (Namespace.ofProgram_tallied q) _

/-- An audit depends on the texts that were added to each part, and on their order there. Whatever was
    tried besides, and between which of them, and how the files are called, the names, the references
    but for the numbers of their files, and the problems are the same. An attempt that fails adds to the
    table of files at most. -/
theorem Program.addAll_alike (graph : ChunkGraph) (levels : Levels) :
    (∀ as bs, (∀ slot, textsFor slot ((ofGraph graph).accepted as) =
        textsFor slot ((ofGraph graph).accepted bs)) →
      (Analysis.run ((ofGraph graph).addAll as) levels).Alike
        (Analysis.run ((ofGraph graph).addAll bs) levels)) ∧
    ∀ (p : Program) a e, (p.add a).2 = .error e → (p.add a).1 = p.afterFailure a e := by
  refine ⟨fun as bs same => ?_, fun p a e failed => add_of_error failed⟩
  have sized : (ofGraph graph).chunks.size = graph.size := Array.size_replicate
  have first := addAll_gains sized as
  have second := addAll_gains sized bs
  refine Analysis.alike_of_scripts (first.graph.trans second.graph.symm) (fun slot => ?_) levels
  rw [first.scripts, second.scripts, same]

/-- In one program there are, between the two files of a chunk, a malformed file, one for a chunk that
    is missing, and the file of the environment that comes last in the other. -/
theorem Program.addAll_alike_failures :
    let empty := ofGraph ⟨#[⟨"main", []⟩], [⟨0⟩], #[[⟨0⟩]]⟩
    let main : Slot := .chunk ⟨0⟩
    let as : List Addition := [⟨main, "a", "x = {};"⟩, ⟨main, "b", "y.z(x.w);"⟩,
      ⟨.externs, "c", "y = {};"⟩]
    let bs : List Addition := [⟨main, "d", "x = {};"⟩, ⟨main, "e", "x = "⟩,
      ⟨.externs, "f", "y = {};"⟩, ⟨.chunk ⟨7⟩, "g", "y = 0;"⟩, ⟨main, "h", "y.z(x.w);"⟩]
    (∀ slot, textsFor slot (empty.accepted as) = textsFor slot (empty.accepted bs)) ∧
    (Analysis.run (empty.addAll as) {}).Alike (Analysis.run (empty.addAll bs) {}) ∧
    (Analysis.run (empty.addAll as) {}).findings = [⟨⟨3⟩, "x.w", .undefined⟩] ∧
    (empty.addAll bs).files.size = 4 ∧
    ∃ file d, (empty.add ⟨main, "e", "x = "⟩).2 = .error (.malformed file d) ∧
      (empty.add ⟨main, "e", "x = "⟩).1 = empty.addFile "e" "x = " := by
  intro empty main as bs
  have alike := addAll_alike ⟨#[⟨"main", []⟩], [⟨0⟩], #[[⟨0⟩]]⟩ {}
  have first : empty.accepted as = as := by decide +kernel
  have second : empty.accepted bs = [⟨main, "d", "x = {};"⟩, ⟨.externs, "f", "y = {};"⟩,
    ⟨main, "h", "y.z(x.w);"⟩] := by decide +kernel
  have same : ∀ slot, textsFor slot (empty.accepted as) = textsFor slot (empty.accepted bs) := by
    intro slot
    rw [first, second]
    cases slot with
    | externs => rfl
    | chunk c =>
      by_cases here : main = .chunk c
      · rw [← here]
        rfl
      · simp [textsFor, as, here]
  refine ⟨same, alike.1 as bs same, by decide +kernel, by decide +kernel, ?_⟩
  have malformed : (match (empty.add ⟨main, "e", "x = "⟩).2 with
      | .error (.malformed _ _) => true
      | _ => false) = true := by decide +kernel
  cases answer : (empty.add ⟨main, "e", "x = "⟩).2 with
  | ok id => rw [answer] at malformed; cases malformed
  | error e =>
    rw [answer] at malformed
    cases e with
    | malformed file d => exact ⟨file, d, rfl, alike.2 _ _ _ answer⟩
    | unknownChunk | exhausted => cases malformed

end NameAudit
