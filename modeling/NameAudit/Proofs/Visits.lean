import NameAudit.Proofs.Descent
import NameAudit.Proofs.EvaluationOrder

/-!
Every node that a program contains is walked, unless it is only a name. A program contains what is
reached from part to part from the statements of one of its files; each file is walked, and the walk of
a node passes through its parts (`Program.Contains.visits`). A reference that is added while a node is
walked has an admitted root, if all names that are global inside the node are admitted and the node
gives its value to no other name (`Walked.rooted`).
-/
namespace NameAudit

open Namespace (Grows Extends)
open Record

/-- Every root is admitted. -/
def anyRoot : String → Prop := fun _ => True

/-- A program contains a node: it is reached from part to part from the statements of a file. -/
def Program.Contains (p : Program) (x : Located) : Prop :=
  ∃ slot source, slot.IsLoaded p.graph ∧ source ∈ p.filesOf slot ∧
    Relation.ReflTransGen Holds (⟨slot, source.id, []⟩, .stmts source.script.body) x

/-- A node is walked on the way from the empty namespace to that of a program. -/
def Program.Visits (p : Program) (x : Located) (before after : Recording) : Prop :=
  Leg anyRoot {} (Namespace.ofProgram p) x before after

/-- What a node that is contained holds is contained. -/
theorem Program.Contains.part {p : Program} {x y : Located} (contained : p.Contains x)
    (holds : Holds x y) : p.Contains y := by
  obtain ⟨slot, source, loaded, isFile, reached⟩ := contained
  exact ⟨slot, source, loaded, isFile, reached.tail holds⟩

theorem Program.Contains.reached {p : Program} {x y : Located} (contained : p.Contains x)
    (further : Relation.ReflTransGen Holds x y) : p.Contains y := by
  obtain ⟨slot, source, loaded, isFile, reached⟩ := contained
  exact ⟨slot, source, loaded, isFile, reached.trans further⟩

/-- A program of one chunk with one file. -/
def Program.ofStatements (body : List Stmt) : Program where
  graph := ⟨#[⟨"main", []⟩], [⟨0⟩], #[[⟨0⟩]]⟩
  chunks := #[[⟨⟨0⟩, ⟨default, none, body⟩⟩]]

theorem Program.contains_ofStatements (body : List Stmt) :
    (ofStatements body).Contains (⟨.chunk ⟨0⟩, ⟨0⟩, []⟩, .stmts body) :=
  ⟨.chunk ⟨0⟩, _, List.mem_cons_self, List.mem_cons_self, .refl⟩

theorem Surroundings.admits_anyRoot (a : Surroundings) : a.Admits anyRoot := fun _ _ => trivial

section
variable {roots : String → Prop} {start stop : Namespace} {x y : Located} {before after : Recording}

/-! ### From a node to its parts -/

theorem Surroundings.Admits.inside {a : Surroundings} (admits : a.Admits roots) (n : Node) :
    (n.inside a).Admits roots := by
  cases n with
  | expr | pattern | stmts => exact admits
  | func ownName f =>
    obtain ⟨span, isArrow, isAsync, isGenerator, params, body⟩ := f
    exact admits.inFunction _
  | staticBlock ss => exact admits.inFunction _
  | stmt s =>
    obtain ⟨span, doc, form⟩ := s
    cases form with
    | block | forEach | forLoop => exact admits.inBlock _
    | _ => exact admits
  | block b =>
    obtain ⟨span, ss⟩ := b
    exact admits.inBlock _
  | branches bs => exact admits.inBlock _
  | handler h =>
    obtain ⟨span, param, ss⟩ := h
    exact admits.inBlock _

theorem Walked.passes (walked : Walked roots x before after)
    (admits : (x.2.inside x.1).Admits roots) :
    after.StandsIn x.1 ∧ Grows before.space after.space ∧ ∃ refs,
      after.space.refs.toList = before.space.refs.toList ++ refs ∧
      Passes roots before.space after.space (x.2.parts x.1) refs := by
  obtain ⟨use, known, here, rfl⟩ := walked
  obtain ⟨there, grows, refs, added, passes, _⟩ :=
    x.2.walk_tours admits here.forest known before here (Grows.refl _)
  exact ⟨there, grows, refs, added, passes⟩

theorem Leg.part (leg : Leg roots start stop x before after)
    (admits : (x.2.inside x.1).Admits roots) (holds : Holds x y) (proper : y.2.isName = false) :
    ∃ first last, Leg roots start stop y first last := by
  obtain ⟨_, _, _, _, passes⟩ := leg.walked.passes admits
  obtain ⟨first, last, inner⟩ := passes.legs y holds proper
  exact ⟨first, last, inner.widen leg.enters leg.leaves⟩

/-- What is added while a node is walked has an admitted root. -/
theorem Walked.rooted (walked : Walked roots x before after)
    (admits : (x.2.inside x.1).Admits roots) {refs : List Ref}
    (added : after.space.refs.toList = before.space.refs.toList ++ refs) :
    ∀ r ∈ refs, after.space.RootedIn roots r.name := by
  induction x using Located.induction generalizing before after refs with
  | step x ih =>
    obtain ⟨there, _, refs', added', passes⟩ := walked.passes admits
    obtain rfl : refs = refs' := List.append_cancel_left (added.symm.trans added')
    intro r member
    rcases passes.sources r member with rooted | ⟨y, holds, admitted, b, e, more, leg, new, inside⟩
    · exact rooted
    · have inner := admitted.inside y.2
      have earlier := ih y holds leg.walked inner new r inside
      exact earlier.extends (leg.walked.passes inner).1.forest leg.leaves.extends

end

/-! ### From a program to its files -/

namespace Record

/-- From each recording between two files, the step walks a node. -/
def Reaches (m : Record Unit) (x : Located) : Prop :=
  ∀ r, IsBetweenFiles r → ∃ before after, Leg anyRoot r.space (out m r).2.space x before after

section
variable {m n : Record Unit} {x : Located} {sites : List Site}

theorem Reaches.andThen (first : Reaches m x) (covers : Covers m sites) {others : List Site}
    (second : Covers n others) : Reaches (m >>= fun _ => n) x := by
  intro r between
  obtain ⟨before, after, leg⟩ := first r between
  exact ⟨before, after, leg.widen (Grows.refl _) (second _ (covers r between).1).2.1⟩

theorem Reaches.later (covers : Covers m sites) (second : Reaches n x) :
    Reaches (m >>= fun _ => n) x := by
  intro r between
  obtain ⟨there, grows, _⟩ := covers r between
  obtain ⟨before, after, leg⟩ := second _ there
  exact ⟨before, after, leg.widen grows (Grows.refl _)⟩

theorem file_reaches (slot : Slot) (source : SourceFile) :
    Reaches (file slot source) (⟨slot, source.id, []⟩, .stmts source.script.body) := by
  rintro r ⟨_, _, here⟩
  have scopes : r.scopes = [] := congrArg Surroundings.scopes here.around
  have start : { r with slot := slot, file := source.id }.StandsIn ⟨slot, source.id, []⟩ := by
    refine ⟨?_, here.forest, here.order_eq⟩
    rw [← scopes]
    rfl
  let a : Surroundings := ⟨slot, source.id, []⟩
  have tours := Logs.underDoc source.script.doc <|
    read_tours (a := a) a.admits_anyRoot here.forest (.stmts source.script.body) .get
  obtain ⟨_, _, _, _, passes, _⟩ := tours _ start (Grows.refl _)
  exact passes.legs _ (List.mem_singleton_self _) rfl

theorem files_reach (slot : Slot) {sources : List SourceFile} {source : SourceFile}
    (member : source ∈ sources) :
    Reaches (files slot sources) (⟨slot, source.id, []⟩, .stmts source.script.body) := by
  induction sources with
  | nil => cases member
  | cons first sources ih =>
    rcases List.mem_cons.mp member with rfl | later
    · exact (file_reaches slot source).andThen (file_covers slot source) (files_cover slot sources)
    · exact (ih later).later (file_covers slot first)

theorem chunks_reach (p : Program) {cs : List ChunkId} {c : ChunkId} (member : c ∈ cs)
    (reaches : Reaches (files (.chunk c) (p.sources c)) x) : Reaches (chunks p cs) x := by
  induction cs with
  | nil => cases member
  | cons first cs ih =>
    rcases List.mem_cons.mp member with rfl | later
    · exact reaches.andThen (files_cover (.chunk c) (p.sources c)) (chunks_cover p cs)
    · exact (ih later).later (files_cover (.chunk first) (p.sources first))

theorem program_reaches (p : Program) {slot : Slot} (loaded : slot.IsLoaded p.graph)
    {source : SourceFile} (member : source ∈ p.filesOf slot) :
    Reaches (program p) (⟨slot, source.id, []⟩, .stmts source.script.body) := by
  cases slot with
  | externs =>
    exact (files_reach .externs member).andThen (files_cover .externs p.externs)
      (chunks_cover p p.graph.order)
  | chunk c =>
    exact (chunks_reach p loaded (files_reach (.chunk c) member)).later
      (files_cover .externs p.externs)

end
end Record

/-- Every node that a program contains is walked, unless it is only a name. -/
theorem Program.Contains.visits {p : Program} {x : Located} (contained : p.Contains x)
    (proper : x.2.isName = false) : ∃ before after, p.Visits x before after := by
  obtain ⟨slot, source, loaded, isFile, reached⟩ := contained
  induction reached with
  | refl => exact program_reaches p loaded isFile _ starts_between_files
  | @tail y z _ holds ih =>
    -- A node with a part that is no name is no name itself.
    have whole : y.2.isName = false :=
      Bool.eq_false_iff.mpr fun name => Bool.eq_false_iff.mp proper (holds.isName name)
    obtain ⟨before, after, leg⟩ := ih whole
    exact leg.part (Surroundings.admits_anyRoot _) holds proper

end NameAudit
