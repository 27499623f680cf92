import NameAudit.Namespace.Build
import NameAudit.Proofs.Tally
import NameAudit.Proofs.Walk

/-!
The namespace of a whole program. The files are walked one after the other from an empty namespace,
so every invariant that a step keeps holds of the result, and its references are those of the sites of
all files.
-/
namespace NameAudit

open Namespace (Grows)

/-- The sites of a file of a part of a program. -/
def SourceFile.sites (slot : Slot) (source : SourceFile) : List Site :=
  let a : Surroundings := ⟨slot, source.id, []⟩
  Stmt.functionSites a source.script.body ++ Stmt.sitesOf a source.script.body

/-- The sites of a program in the order of evaluation. -/
def Program.sites (p : Program) : List Site :=
  p.externs.flatMap (·.sites .externs) ++
    p.graph.order.flatMap fun c => (p.sources c).flatMap (·.sites (.chunk c))

namespace Record

/-- A recording that has walked whole files only. -/
def IsBetweenFiles (r : Recording) : Prop := ∃ slot file, r.StandsIn ⟨slot, file, []⟩

/-- From each recording between two files, the step leads to one between two files, and adds the
    references of some sites. -/
def Covers (m : Record Unit) (sites : List Site) : Prop :=
  ∀ r, IsBetweenFiles r → IsBetweenFiles (out m r).2 ∧ Grows r.space (out m r).2.space ∧
    ∃ refs, (out m r).2.space.refs.toList = r.space.refs.toList ++ refs ∧
      Accounts (out m r).2.space sites refs

theorem nothing_covers : Covers (pure ()) [] :=
  fun r between => ⟨between, Grows.refl r.space, [], (List.append_nil _).symm, Accounts.nil r.space⟩

theorem Covers.seq {m n : Record Unit} {sites others : List Site} (first : Covers m sites)
    (second : Covers n others) : Covers (m >>= fun _ => n) (sites ++ others) := by
  intro r between
  obtain ⟨there, grows, refs, added, accounts⟩ := first r between
  obtain ⟨last, further, more, addedMore, accountsMore⟩ := second _ there
  obtain ⟨slot, file, here⟩ := there
  rw [out_bind]
  refine ⟨last, grows.trans further, refs ++ more, ?_, ?_⟩
  · rw [addedMore, added, List.append_assoc]
  · exact (accounts.extends here.forest further.extends).append accountsMore

theorem file_covers (slot : Slot) (source : SourceFile) :
    Covers (file slot source) (source.sites slot) := by
  rintro r ⟨before, previous, here⟩
  have scopes : r.scopes = [] := congrArg Surroundings.scopes here.around
  have start : { r with slot := slot, file := source.id }.StandsIn ⟨slot, source.id, []⟩ := by
    refine ⟨?_, here.forest, here.order_eq⟩
    rw [← scopes]
    rfl
  have walks := Logs.underDoc source.script.doc <| afterFunctions_walks source.script.body <|
    Stmt.walkAll_sites source.script.body ⟨slot, source.id, []⟩ r.space
  obtain ⟨there, grows, refs, added, accounts, _⟩ := walks _ start (Grows.refl _)
  exact ⟨⟨slot, source.id, there⟩, grows, refs, added, accounts⟩

theorem files_cover (slot : Slot) (sources : List SourceFile) :
    Covers (files slot sources) (sources.flatMap (·.sites slot)) := by
  induction sources with
  | nil => exact nothing_covers
  | cons source sources ih => exact (file_covers slot source).seq ih

theorem chunks_cover (p : Program) (cs : List ChunkId) :
    Covers (chunks p cs) (cs.flatMap fun c => (p.sources c).flatMap (·.sites (.chunk c))) := by
  induction cs with
  | nil => exact nothing_covers
  | cons c cs ih => exact (files_cover (.chunk c) (p.sources c)).seq ih

theorem program_covers (p : Program) : Covers (program p) p.sites :=
  (files_cover .externs p.externs).seq (chunks_cover p p.graph.order)

theorem starts_between_files : IsBetweenFiles {} :=
  ⟨.externs, ⟨0⟩, rfl, Namespace.forest_empty, rfl⟩

end Record

namespace Namespace

theorem ofProgram_grows (p : Program) : Grows {} (ofProgram p) :=
  (Record.program_covers p _ Record.starts_between_files).2.1

theorem ofProgram_forest (p : Program) : (ofProgram p).Forest :=
  (ofProgram_grows p).forest forest_empty

theorem ofProgram_links (p : Program) : (ofProgram p).Links :=
  (ofProgram_grows p).links forest_empty links_empty

theorem ofProgram_tallied (p : Program) : (ofProgram p).Tallied :=
  (ofProgram_grows p).tallied forest_empty tallied_empty

/-- The references of a program are those of its sites: each occurrence with a global root has its
    one or two, one with a local root has none, and there are no others than these and the sets of
    definitions. -/
theorem ofProgram_refs_by_sites (p : Program) :
    ∃ parts, List.Forall₂ (Site.Records (ofProgram p)) p.sites parts ∧
      (ofProgram p).refs.toList = parts.flatten := by
  obtain ⟨_, _, refs, added, parts, recorded, rfl⟩ :=
    Record.program_covers p _ Record.starts_between_files
  exact ⟨parts, recorded, added⟩

end Namespace
end NameAudit
