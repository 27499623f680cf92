import NameAudit.Proofs.Lockstep
import NameAudit.Proofs.Tags
import NameAudit.Proofs.Visits

/-!
A program behind a veil. Its files are walked one after the other, each from a point outside all scopes
and comments, so a program with other files follows as each of its files does (`ofProgram_mapFiles`), and
references become suppressed in the files and the statements that comments suppress (`ofProgram_goes`).
-/
namespace NameAudit

open Record

/-! ### Other files -/

/-- A program with other files in place of its own. -/
def Program.mapFiles (g : SourceFile → SourceFile) (p : Program) : Program :=
  { p with externs := p.externs.map g, chunks := p.chunks.map (List.map g) }

/-- A file with other comments, as it looks through a veil. -/
def Veil.source (v : Veil) (f : DocComment → DocComment) (s : SourceFile) : SourceFile :=
  ⟨v.file s.id, s.script.mapDocs f⟩

theorem Program.sources_mapFiles (g : SourceFile → SourceFile) (p : Program) (c : ChunkId) :
    (p.mapFiles g).sources c = (p.sources c).map g := by
  show ((p.chunks.map (List.map g))[c.index]?).getD [] = _
  rw [Array.getElem?_map, Program.sources]
  cases p.chunks[c.index]? <;> rfl

/-- A step of the walk by which all references are exempt: that of a statement under a comment with a tag
    that suppresses the warning, or that of a file which such a comment describes. -/
inductive Program.Suppresses (p : Program) : Surroundings → Record Unit → Prop
  | statement {a : Surroundings} {s : Stmt} (contained : p.Contains (a, .stmt s))
      (suppresses : DocComment.HasSuppression s.doc) : Suppresses p a s.walk
  | file {slot : Slot} {source : SourceFile} (loaded : slot.IsLoaded p.graph)
      (isFile : source ∈ p.filesOf slot) (suppresses : DocComment.HasSuppression source.script.doc) :
      Suppresses p ⟨slot, source.id, []⟩ (Record.underDoc source.script.doc
        (Record.afterFunctions source.script.body (Stmt.walkAll source.script.body)))

theorem Program.Suppresses.of_isSuppressed {p : Program} {x : Located} (contained : p.Contains x)
    (suppressed : x.2.isSuppressed = true) (use : Use) : p.Suppresses x.1 (x.2.walk use) := by
  obtain ⟨a, n⟩ := x
  cases n with
  | stmt s =>
    obtain ⟨span, doc, form⟩ := s
    exact .statement contained (DocComment.suppresses_iff.mp suppressed)
  | _ => cases suppressed

namespace Record

/-- From each point between two files, a step goes on as `Goes` says, and another does the same behind a
    veil. -/
def FollowsFiles (v : Veil) (Y : Surroundings → Record Unit → Prop) (m m' : Record Unit) : Prop :=
  ∀ r : Recording, r.scopes = [] → (out m r).2.scopes = [] ∧ Goes Y r (out m r).2 ∧
    out m' (v.recording r) = ((), v.recording (out m r).2)

section
variable {v : Veil} {f : DocComment → DocComment} {Y : Surroundings → Record Unit → Prop}
variable {m m' n n' : Record Unit}

theorem FollowsFiles.seq (first : FollowsFiles v Y m m') (second : FollowsFiles v Y n n') :
    FollowsFiles v Y (m >>= fun _ => n) (m' >>= fun _ => n') := by
  intro r outside
  obtain ⟨there, goes, veiled⟩ := first r outside
  obtain ⟨last, further, alsoVeiled⟩ := second _ there
  refine ⟨last, goes.trans further, ?_⟩
  rw [out_bind, veiled]
  exact alsoVeiled

theorem nothing_followsFiles : FollowsFiles v Y (pure ()) (pure ()) :=
  fun _ outside => ⟨outside, Goes.still rfl rfl, rfl⟩

theorem body_follows (fits : v.Fits f) {p : Program} {slot : Slot} (loaded : slot.IsLoaded p.graph)
    {source : SourceFile} (isFile : source ∈ p.filesOf slot) :
    Follows v p.Suppresses ⟨slot, source.id, []⟩ ((Node.stmts source.script.body).walk (.read .get))
      (((Node.stmts source.script.body).mapDocs f).walk (.read .get)) :=
  Located.walk_follows fits (⟨slot, source.id, []⟩, .stmts source.script.body)
    (fun _ reached suppressed use =>
      .of_isSuppressed ⟨slot, source, loaded, isFile, reached⟩ suppressed use)
    (.read .get)

theorem file_follows (fits : v.Fits f) {p : Program} {slot : Slot} (loaded : slot.IsLoaded p.graph)
    {source : SourceFile} (isFile : source ∈ p.filesOf slot) :
    FollowsFiles v p.Suppresses (file slot source) (file slot (v.source f source)) := by
  intro r outside
  let a : Surroundings := ⟨slot, source.id, []⟩
  have around : { r with slot := slot, file := source.id }.around = a := by
    show (⟨slot, source.id, r.scopes⟩ : Surroundings) = a
    rw [outside]
  obtain ⟨there, goes, veiled⟩ :=
    (body_follows fits loaded isFile).underDoc fits source.script.doc
      (fun suppresses => .file loaded isFile (DocComment.suppresses_iff.mp suppresses)) _ around
  exact ⟨congrArg Surroundings.scopes there,
    ⟨goes.suppressed, goes.keeps, goes.exempt, goes.within⟩, veiled⟩

theorem files_follow (fits : v.Fits f) {p : Program} {slot : Slot} (loaded : slot.IsLoaded p.graph)
    {sources : List SourceFile} (areFiles : ∀ s ∈ sources, s ∈ p.filesOf slot) :
    FollowsFiles v p.Suppresses (files slot sources) (files slot (sources.map (v.source f))) := by
  induction sources with
  | nil => exact nothing_followsFiles
  | cons source sources ih =>
    exact (file_follows fits loaded (areFiles source List.mem_cons_self)).seq
      (ih fun s member => areFiles s (List.mem_cons_of_mem source member))

theorem chunks_follow (fits : v.Fits f) (p : Program) {cs : List ChunkId}
    (loaded : ∀ c ∈ cs, c ∈ p.graph.order) :
    FollowsFiles v p.Suppresses (chunks p cs) (chunks (p.mapFiles (v.source f)) cs) := by
  induction cs with
  | nil => exact nothing_followsFiles
  | cons c cs ih =>
    rw [chunks, chunks, Program.sources_mapFiles]
    have isLoaded : (Slot.chunk c).IsLoaded p.graph := loaded c List.mem_cons_self
    exact (files_follow fits isLoaded fun s member => member).seq
      (ih fun d member => loaded d (List.mem_cons_of_mem c member))

theorem program_follows (fits : v.Fits f) (p : Program) :
    FollowsFiles v p.Suppresses (program p) (program (p.mapFiles (v.source f))) := by
  have environment : Slot.externs.IsLoaded p.graph := trivial
  exact (files_follow fits environment fun s member => member).seq
    (chunks_follow fits p fun c member => member)

/-- The walk of a program reads its order and the files of its parts. -/
theorem program_congr {p q : Program} (order : p.graph.order = q.graph.order)
    (externs : p.externs = q.externs) (sources : ∀ c, p.sources c = q.sources c) :
    program p = program q := by
  have chunks_congr : ∀ cs, chunks p cs = chunks q cs := by
    intro cs
    induction cs with
    | nil => rfl
    | cons c cs ih => rw [chunks, chunks, sources, ih]
  rw [program, program, order, externs, chunks_congr]

end
end Record

namespace Namespace

variable {v : Veil} {f : DocComment → DocComment}

/-- A program with other comments looks as the program does through a veil. -/
theorem ofProgram_mapFiles (fits : v.Fits f) (p : Program) :
    ofProgram (p.mapFiles (v.source f)) = v.space (ofProgram p) := by
  obtain ⟨_, _, veiled⟩ := program_follows fits p {} rfl
  have start : v.recording {} = {} := by
    rw [Veil.recording, Veil.space, v.file_zero, v.suppressed_zero, Array.map_empty]
  rw [start] at veiled
  exact congrArg (·.2.space) veiled

theorem ofProgram_goes (p : Program) :
    Goes p.Suppresses {} (out (program p) {}).2 :=
  (program_follows (Veil.fits_id false) p {} rfl).2.1

end Namespace
end NameAudit
