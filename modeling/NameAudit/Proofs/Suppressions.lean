import NameAudit.Proofs.Findings
import NameAudit.Proofs.VeiledChecks
import NameAudit.Proofs.VeiledPrograms

/-!
What a comment suppresses. Without the tags that suppress the warning about undefined names, a program
has the same names and references, but no reference is suppressed. Those that were are the ones that are
recorded in a statement or in a file under such a comment and that nothing else exempts, and of the
problems only those that they were undefined come to light.
-/
namespace NameAudit

open Record

/-! ### Comments without suppressions -/

namespace DocComment

/-- A comment without the tags that suppress the warning about undefined names. -/
def unsuppressed (d : DocComment) : DocComment := d.keepTags fun t => !t.isSuppression

theorem hasTag_unsuppressed (d : DocComment) {name : String} (other : name ≠ "suppress") :
    d.unsuppressed.hasTag name = d.hasTag name := by
  rw [hasTag, hasTag, unsuppressed, tags_keepTags, List.any_filter]
  refine congrArg d.tags.any (funext fun t => ?_)
  cases named : t.name == name with
  | false => exact Bool.and_false _
  | true =>
    have kept : t.isSuppression = false := by
      rw [Tag.isSuppression, eq_of_beq named, beq_eq_false_iff_ne.mpr other, Bool.false_and]
    rw [kept]
    rfl

end DocComment

namespace Veil

/-- No warning looks suppressed. -/
def overSuppressions : Veil := ⟨false, true⟩

theorem overSuppressions_ne (e : Exemption) : overSuppressions.exemption e ≠ .suppressed := by
  cases e <;> decide

theorem overSuppressions_of_ne {e : Exemption} (other : e ≠ .suppressed) :
    overSuppressions.exemption e = e :=
  if_neg fun both => other both.2

theorem fits_unsuppressed : overSuppressions.Fits DocComment.unsuppressed where
  declaresType d := by
    have marks : ∀ name, name ≠ "suppress" → d.unsuppressed.hasTag name = d.hasTag name :=
      fun _ other => d.hasTag_unsuppressed other
    rw [DocComment.declaresType, DocComment.declaresType, marks _ (by decide), marks _ (by decide)]
  suppresses d := by
    show Record.suppresses (some d.unsuppressed) = false
    rw [Bool.eq_false_iff, ne_eq, DocComment.suppresses_iff]
    rintro ⟨_, t, ⟨⟩, member, suppression⟩
    rw [DocComment.unsuppressed, DocComment.tags_keepTags] at member
    have kept := (List.mem_filter.mp member).2
    rw [suppression] at kept
    cases kept

end Veil

/-! ### Programs without suppressions -/

/-- A program without the tags that suppress the warning about undefined names. -/
def Program.unsuppressed (p : Program) : Program :=
  p.mapFiles fun s => { s with script := s.script.mapDocs DocComment.unsuppressed }

/-- A reference is recorded in a statement or a file under a comment that suppresses the warning. -/
def Program.SuppressedAt (p : Program) (i : RefId) : Prop :=
  ∃ a step, p.Suppresses a step ∧ (Namespace.ofProgram p).RecordedBy i a step

/-- An audit differs from another in what is suppressed: of the references that nothing exempts, those
    inside, and with them the problems that their names are undefined. -/
structure Analysis.SuppressesInside (inside : RefId → Prop) (a bare : Analysis) : Prop where
  names : a.space.names = bare.space.names
  roots : a.space.roots = bare.space.roots
  size : a.space.refs.size = bare.space.refs.size
  refs : ∀ i, a.space.ref i = { bare.space.ref i with exemption := (a.space.ref i).exemption }
  exposed : ∀ i, (bare.space.ref i).exemption ≠ .suppressed
  suppressed : ∀ i, a.space.HasRef i → (bare.space.ref i).exemption = .none → inside i →
    (a.space.ref i).exemption = .suppressed
  unchanged : ∀ i, a.space.HasRef i → (bare.space.ref i).exemption ≠ .none ∨ ¬ inside i →
    (a.space.ref i).exemption = (bare.space.ref i).exemption
  findings : open scoped Classical in
    a.findings = bare.findings.filter fun f => ¬ (f.problem = .undefined ∧ inside f.reference)

namespace Program

/-- Whatever comes before a step that suppresses, the references that it adds are exempt. -/
theorem Suppresses.exempts {p : Program} {a : Surroundings} {step : Record Unit}
    (suppresses : p.Suppresses a step) {r : Recording} (here : r.around = a) {i : RefId}
    (new : ¬ r.space.HasRef i) (has : (out step r).2.space.HasRef i) :
    ((out step r).2.space.ref i).exemption ≠ .none := by
  have fits := Veil.fits_id false
  cases suppresses with
  | @statement _ s contained suppresses =>
    obtain ⟨span, doc, form⟩ := s
    have parts : PartsFollow ⟨false, false⟩ id p.Suppresses ((Node.stmt (.mk span doc form)).parts a) :=
      fun x holds => Located.walk_follows fits x fun y reached =>
        .of_isSuppressed ((contained.part holds).reached reached)
    have inner := (StmtForm.walk_follows parts doc.isSome).markingType (declaresType doc)
    exact inner.exempt_underDoc (DocComment.suppresses_iff.mpr suppresses) here new has
  | file loaded isFile suppresses =>
    have inner := body_follows fits loaded isFile
    exact inner.exempt_underDoc (DocComment.suppresses_iff.mpr suppresses) here new has

section
variable {p : Program} {i : RefId}

theorem SuppressedAt.exempt (inside : p.SuppressedAt i) :
    ((Namespace.ofProgram p).ref i).exemption ≠ .none := by
  obtain ⟨a, step, suppresses, before, here, new, has, first⟩ := inside
  rw [(first.ref has).2]
  exact suppresses.exempts here new has

/-- Inside, what is not exempt for another reason is suppressed. -/
theorem SuppressedAt.exemption (inside : p.SuppressedAt i)
    (bare : Veil.overSuppressions.exemption ((Namespace.ofProgram p).ref i).exemption = .none) :
    ((Namespace.ofProgram p).ref i).exemption = .suppressed := by
  by_contra other
  rw [Veil.overSuppressions_of_ne other] at bare
  exact inside.exempt bare

/-- Only inside, references are suppressed. -/
theorem SuppressedAt.of_exemption (has : (Namespace.ofProgram p).HasRef i)
    (suppressed : ((Namespace.ofProgram p).ref i).exemption = .suppressed) : p.SuppressedAt i := by
  have new : ¬ ({} : Recording).space.HasRef i := Nat.not_lt_zero _
  rcases (Namespace.ofProgram_goes p).within i new has suppressed with already | inside
  · exact absurd already (Nat.lt_irrefl 0)
  · exact inside

end
end Program

namespace Namespace

theorem ofProgram_unsuppressed (p : Program) :
    ofProgram p.unsuppressed = Veil.overSuppressions.space (ofProgram p) :=
  ofProgram_mapFiles Veil.fits_unsuppressed p

theorem ref_unsuppressed (p : Program) (i : RefId) :
    (ofProgram p.unsuppressed).ref i = Veil.overSuppressions.ref ((ofProgram p).ref i) := by
  rw [ofProgram_unsuppressed]
  exact Veil.overSuppressions.ref_space (ofProgram p) i

/-- Only what nothing exempts is found to be undefined. -/
theorem exemption_of_undefined {ns : Namespace} (forest : ns.Forest) (tallied : ns.Tallied)
    {graph : ChunkGraph} {f : Finding} (member : f ∈ ns.findings graph)
    (undefined : f.problem = .undefined) :
    ns.HasRef f.reference ∧ (ns.ref f.reference).exemption = .none := by
  by_cases reportable : ns.IsReportable f.reference
  · exact ⟨reportable.has, reportable.exemption⟩
  · have here : f ∈ (ns.findings graph).filter (isUndefinedAt f.reference) :=
      List.mem_filter.mpr ⟨member, decide_eq_true ⟨rfl, undefined⟩⟩
    rw [filter_findings_of_not_reportable reportable forest tallied] at here
    exact absurd here List.not_mem_nil

open scoped Classical in
theorem findings_unsuppressed (p : Program) (graph : ChunkGraph) :
    (ofProgram p).findings graph = ((ofProgram p.unsuppressed).findings graph).filter fun f =>
      ¬ (f.problem = .undefined ∧ p.SuppressedAt f.reference) := by
  have all : (ofProgram p).findings graph =
      ((ofProgram p.unsuppressed).findings graph).filter (ofProgram p).reports := by
    rw [ofProgram_unsuppressed]
    exact findings_space (ofProgram_forest p) (ofProgram_tallied p) graph
  refine all.trans (List.filter_congr fun f member => ?_)
  by_cases undefined : f.problem = .undefined
  · obtain ⟨has, bare⟩ := exemption_of_undefined (ofProgram_forest p.unsuppressed)
      (ofProgram_tallied p.unsuppressed) member undefined
    rw [ref_unsuppressed] at bare
    rw [ofProgram_unsuppressed, HasRef, Veil.space, Array.size_map] at has
    have both : ((ofProgram p).ref f.reference).exemption = .suppressed ↔
        p.SuppressedAt f.reference := ⟨.of_exemption has, fun inside => inside.exemption bare⟩
    simp [reports, undefined, both]
  · simp [reports, undefined]

end Namespace

/-- In `/** @suppress {undefinedNames} */ a.x(); a.y();`, the comment does not reach the second call. -/
example :
    let call (doc : Option DocComment) (start : Nat) (member : String) : Stmt :=
      .mk ⟨start, start + 6⟩ doc <| .expr <| .call ⟨start, start + 5⟩ false
        (.member ⟨start, start + 3⟩ false (.ident ⟨start, start + 1⟩ "a") member) []
    let doc : DocComment := ⟨⟨0, 34⟩, "/** @suppress \x7bundefinedNames\x7d */"⟩
    let p := Program.ofStatements [call (some doc) 35 "x", call none 42 "y"]
    (Namespace.ofProgram p).refs.toList.map (·.exemption) = [.suppressed, .none] ∧
      (Namespace.ofProgram p.unsuppressed).refs.toList.map (·.exemption) = [.none, .none] := by
  decide +kernel

end NameAudit
