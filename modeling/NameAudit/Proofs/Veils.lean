import NameAudit.Proofs.Growth
import NameAudit.Proofs.Passage

/-!
Two runs of the walk in step, the second of which sees everything through a veil: the files of all
references are hidden, or that warnings are suppressed. A step is plain if it does the same under a veil
as without; neither the file nor a suppression is read by any step, though both are written into
references. Where references become suppressed is said besides (`Goes`): under a comment that suppresses,
and nowhere else.
-/
namespace NameAudit

/-! ### Veils -/

/-- What is hidden of references. -/
structure Veil where
  /-- All files look like the first. -/
  files : Bool
  /-- No warning looks suppressed. -/
  suppressions : Bool

namespace Veil

variable (v : Veil)

def file (id : FileId) : FileId := if v.files then ⟨0⟩ else id

def exemption (e : Exemption) : Exemption :=
  if v.suppressions = true ∧ e = .suppressed then .none else e

def suppressed (n : Nat) : Nat := if v.suppressions then 0 else n

/-- A reference behind a veil. -/
def ref (r : Ref) : Ref :=
  { r with
    position := { r.position with place := ⟨v.file r.position.place.file, r.position.place.span⟩ }
    exemption := v.exemption r.exemption }

/-- A namespace behind a veil: names are the same. -/
def space (ns : Namespace) : Namespace := { ns with refs := ns.refs.map v.ref }

/-- A recording behind a veil. -/
def recording (r : Recording) : Recording :=
  { r with
    space := v.space r.space
    file := v.file r.file
    suppressed := v.suppressed r.suppressed }

theorem ref_default : v.ref default = default := by
  obtain ⟨files, suppressions⟩ := v
  cases files <;> cases suppressions <;> rfl

theorem file_zero : v.file ⟨0⟩ = ⟨0⟩ := by
  unfold file
  split <;> rfl

theorem suppressed_zero : v.suppressed 0 = 0 := by
  unfold suppressed
  split <;> rfl

/-- What would be suppressed is not exempt where suppressions are hidden. -/
theorem exemption_of_nextRef (n : Nat) {e : Exemption} (plain : e ≠ .suppressed) :
    v.exemption (if e = .none ∧ 0 < n then .suppressed else e) =
      if e = .none ∧ 0 < v.suppressed n then .suppressed else e := by
  unfold exemption suppressed
  cases v.suppressions with
  | false => simp
  | true =>
    by_cases suppressed : e = .none ∧ 0 < n
    · simp [suppressed]
    · simp [suppressed, plain]

section
variable (ns : Namespace)

theorem ref_space (i : RefId) : (v.space ns).ref i = v.ref (ns.ref i) := by
  unfold Namespace.ref space
  rw [Array.getElem?_map]
  cases ns.refs[i.index]? with
  | none => exact v.ref_default.symm
  | some r => rfl

theorem rootOrNew_space (base : String) :
    (v.space ns).rootOrNew base = ((ns.rootOrNew base).1, v.space (ns.rootOrNew base).2) := by
  have same : (v.space ns).root? base = ns.root? base := rfl
  rw [Namespace.rootOrNew, Namespace.rootOrNew, same]
  cases ns.root? base <;> rfl

theorem childOrNew_space (parent : NameId) (base : String) :
    (v.space ns).childOrNew parent base =
      ((ns.childOrNew parent base).1, v.space (ns.childOrNew parent base).2) := by
  have same : (v.space ns).child? parent base = ns.child? parent base := rfl
  rw [Namespace.childOrNew, Namespace.childOrNew, same]
  cases ns.child? parent base <;> rfl

theorem descendOrNew_space (id : NameId) (bases : List String) :
    (v.space ns).descendOrNew id bases =
      ((ns.descendOrNew id bases).1, v.space (ns.descendOrNew id bases).2) := by
  induction bases generalizing ns id with
  | nil => rfl
  | cons base bases ih =>
    rw [Namespace.descendOrNew, childOrNew_space]
    exact ih _ _

theorem addRef_space (r : Ref) : v.space (ns.addRef r) = (v.space ns).addRef (v.ref r) := by
  have next : (v.space ns).nextRef = ns.nextRef := congrArg RefId.mk Array.size_map
  rw [Namespace.addRef, Namespace.addRef, next]
  simp only [space, Namespace.modifyName, Array.map_push]
  rfl

end
end Veil

/-! ### Where references become suppressed -/

/-- The references of one namespace are the first ones of another. -/
def Namespace.KeepsRefs (old new : Namespace) : Prop := old.refs.toList <+: new.refs.toList

theorem Namespace.KeepsRefs.ref {old new : Namespace} (keeps : old.KeepsRefs new) {i : RefId}
    (has : old.HasRef i) : new.HasRef i ∧ new.ref i = old.ref i := by
  have inside : i.index < old.refs.toList.length := has
  obtain ⟨more, same⟩ := keeps
  have found : new.refs[i.index]? = old.refs[i.index]? := by
    rw [← Array.getElem?_toList, ← Array.getElem?_toList, ← same,
      List.getElem?_append_left inside]
  refine ⟨?_, congrArg (·.getD default) found⟩
  show i.index < new.refs.toList.length
  rw [← same, List.length_append]
  omega

/-- A reference is recorded by a step at some surroundings: from a recording there, which does not hold
    it, the step leads to one that does, and what that holds are the first references of the namespace. -/
def Namespace.RecordedBy (ns : Namespace) (i : RefId) (a : Surroundings) (step : Record Unit) : Prop :=
  ∃ before : Recording, before.around = a ∧ ¬ before.space.HasRef i ∧
    (Record.out step before).2.space.HasRef i ∧ (Record.out step before).2.space.KeepsRefs ns

/-- From one recording on to another, references are added. Where warnings are suppressed, each of them
    is exempt; elsewhere, one is suppressed only by a step of a certain kind. -/
structure Goes (Y : Surroundings → Record Unit → Prop) (r s : Recording) : Prop where
  suppressed : s.suppressed = r.suppressed
  keeps : r.space.KeepsRefs s.space
  exempt : ∀ i, ¬ r.space.HasRef i → s.space.HasRef i → 0 < r.suppressed →
    (s.space.ref i).exemption ≠ .none
  within : ∀ i, ¬ r.space.HasRef i → s.space.HasRef i →
    (s.space.ref i).exemption = .suppressed →
      0 < r.suppressed ∨ ∃ a step, Y a step ∧ s.space.RecordedBy i a step

section
variable {Y : Surroundings → Record Unit → Prop} {q r s : Recording} {ns last : Namespace} {i : RefId}
variable {a : Surroundings} {step : Record Unit}

theorem Namespace.RecordedBy.later (recorded : ns.RecordedBy i a step) (keeps : ns.KeepsRefs last) :
    last.RecordedBy i a step := by
  obtain ⟨before, around, new, has, first⟩ := recorded
  exact ⟨before, around, new, has, first.trans keeps⟩

/-- Nothing is added. -/
theorem Goes.still (suppressed : s.suppressed = r.suppressed) (refs : s.space.refs = r.space.refs) :
    Goes Y r s := by
  have old : ∀ {i}, s.space.HasRef i → r.space.HasRef i := fun has => by
    rwa [Namespace.HasRef, refs] at has
  have keeps : r.space.KeepsRefs s.space := ⟨[], by rw [List.append_nil, refs]⟩
  exact ⟨suppressed, keeps, fun i new has => absurd (old has) new, fun i new has => absurd (old has) new⟩

theorem Goes.trans (first : Goes Y q r) (second : Goes Y r s) : Goes Y q s := by
  refine ⟨second.suppressed.trans first.suppressed, first.keeps.trans second.keeps, ?_, ?_⟩
  · intro i new has positive
    by_cases between : r.space.HasRef i
    · rw [(second.keeps.ref between).2]
      exact first.exempt i new between positive
    · exact second.exempt i between has (first.suppressed ▸ positive)
  · intro i new has suppressed
    by_cases between : r.space.HasRef i
    · rw [(second.keeps.ref between).2] at suppressed
      refine (first.within i new between suppressed).imp_right fun ⟨a, step, holds, recorded⟩ => ?_
      exact ⟨a, step, holds, recorded.later second.keeps⟩
    · exact (second.within i between has suppressed).imp_left (first.suppressed ▸ ·)

end

namespace Record

variable {α β : Type}

/-! ### Plain steps -/

/-- A step that reads neither the file nor a suppression, and leaves the surroundings. -/
structure Plain (m : Record α) : Prop where
  around : ∀ r, (out m r).2.around = r.around
  goes : ∀ (Y : Surroundings → Record Unit → Prop) r, Goes Y r (out m r).2
  veiled : ∀ (v : Veil) r, out m (v.recording r) = ((out m r).1, v.recording (out m r).2)

section
variable {m : Record α} {f : α → Record β}

theorem Plain.pure (x : α) : Plain (pure x : Record α) :=
  ⟨fun _ => rfl, fun _ _ => Goes.still rfl rfl, fun _ _ => rfl⟩

theorem Plain.bind (first : Plain m) (next : ∀ x, Plain (f x)) : Plain (m >>= f) where
  around r := ((next _).around _).trans (first.around r)
  goes Y r := (first.goes Y r).trans ((next _).goes Y _)
  veiled v r := by
    rw [out_bind, first.veiled]
    exact (next _).veiled v _

theorem Plain.discard (plain : Plain m) : Plain (m >>= fun _ => (Pure.pure () : Record Unit)) :=
  plain.bind fun _ => .pure ()

/-- A step that goes on by what a recording says, but not of its file or of suppressions. -/
theorem Plain.get {g : Recording → Record β} (next : ∀ r, Plain (g r))
    (blind : ∀ (v : Veil) r, g (v.recording r) = g r) :
    Plain ((get : Record Recording) >>= g) where
  around r := (next r).around r
  goes Y r := (next r).goes Y r
  veiled v r := by
    show out (g (v.recording r)) (v.recording r) = _
    rw [blind]
    exact (next r).veiled v r

/-- A step that changes names only. -/
theorem Plain.naming (change : Namespace → α × Namespace)
    (changes : ∀ r, out m r = ((change r.space).1, { r with space := (change r.space).2 }))
    (refs : ∀ ns, (change ns).2.refs = ns.refs)
    (veiled : ∀ (v : Veil) ns, change (v.space ns) = ((change ns).1, v.space (change ns).2)) :
    Plain m where
  around r := by rw [changes]; rfl
  goes Y r := by
    rw [changes]
    exact Goes.still rfl (refs r.space)
  veiled v r := by
    rw [changes, changes]
    show ((change (v.space r.space)).1,
      { v.recording r with space := (change (v.space r.space)).2 }) = _
    rw [veiled]
    rfl

end

theorem modifyName_plain (id : NameId) (f : Name → Name) : Plain (modifyName id f) :=
  .naming (fun ns => ((), ns.modifyName id f)) (fun _ => rfl) (fun _ => rfl) fun _ _ => rfl

theorem root_plain (base : String) : Plain (root base) :=
  .naming (·.rootOrNew base) (fun _ => rfl) (·.refs_rootOrNew base) fun v ns => v.rootOrNew_space ns base

theorem child_plain (parent : NameId) (base : String) : Plain (child parent base) :=
  .naming (·.childOrNew parent base) (fun _ => rfl) (·.refs_childOrNew parent base)
    fun v ns => v.childOrNew_space ns parent base

theorem nameAt_plain (path : Path) : Plain (nameAt path) :=
  (root_plain path.root).bind fun id =>
    .naming (·.descendOrNew id path.members) (fun _ => rfl) (·.refs_descendOrNew id path.members)
      fun v ns => v.descendOrNew_space ns id path.members

theorem isGlobal_plain (name : String) : Plain (isGlobal name) :=
  .get (fun _ => .pure _) fun _ _ => rfl

theorem mark_plain (mark : Bool) :
    Plain (modify fun r => { r with declaresType := mark }) :=
  ⟨fun _ => rfl, fun _ _ => Goes.still rfl rfl, fun _ _ => rfl⟩

theorem reference_plain (name : NameId) (type : RefType) (span : Span) (exemption : Exemption)
    (plain : exemption ≠ .suppressed) (isStub : Bool) (member : Option String) :
    Plain (reference name type span exemption isStub member) where
  around r := rfl
  goes Y r := by
    let next := nextRef r name type span exemption isStub member
    have made : next.exemption = if exemption = .none ∧ 0 < r.suppressed then .suppressed
      else exemption := rfl
    have last : ∀ i, ¬ r.space.HasRef i → (r.space.addRef next).HasRef i →
        (r.space.addRef next).ref i = next := by
      intro i new has
      rcases (Namespace.hasRef_addRef r.space next i).mp has with old | same
      · exact absurd old new
      · rw [Namespace.ref_addRef, if_pos same]
    refine ⟨rfl, ⟨[next], Array.toList_push.symm⟩, fun i new has positive => ?_,
      fun i new has suppressed => .inl ?_⟩
    · show ((r.space.addRef next).ref i).exemption ≠ .none
      rw [last i new has, made]
      split
      · exact nofun
      next other => exact fun none => other ⟨none, positive⟩
    · change ((r.space.addRef next).ref i).exemption = .suppressed at suppressed
      rw [last i new has, made] at suppressed
      split at suppressed
      next both => exact both.2
      next => exact absurd suppressed plain
  veiled v r := by
    show ((), { v.recording r with
      order := r.order + 1
      space := (v.space r.space).addRef
        (nextRef (v.recording r) name type span exemption isStub member) }) = _
    have same : nextRef (v.recording r) name type span exemption isStub member =
        v.ref (nextRef r name type span exemption isStub member) := by
      unfold nextRef Veil.ref
      rw [v.exemption_of_nextRef r.suppressed plain]
      simp only [Veil.recording, Veil.space, Namespace.nextRef, Array.size_map]
      rfl
    rw [same, ← Veil.addRef_space]
    rfl

/-! ### The steps of the walk -/

theorem setName_plain (name : NameId) (kind : NameKind) (span : Span) (isStub : Bool) :
    Plain (setName name kind span isStub) := by
  refine (reference_plain name .set span .none nofun isStub none).bind fun _ => ?_
  refine (modifyName_plain name _).bind fun _ => Plain.get (fun r => ?_) fun _ _ => rfl
  dsimp only
  split
  · exact (modifyName_plain name _).bind fun _ => mark_plain false
  · exact mark_plain false

theorem prototypeGet_plain (owner : Path) (member : Option String) (span : Span)
    (exemption : Exemption) (plain : exemption ≠ .suppressed) (isAssigned : Bool) :
    Plain (prototypeGet owner member span exemption isAssigned) := by
  refine (nameAt_plain owner).bind fun id => ?_
  refine (reference_plain id .prototypeGet span exemption plain false member).bind fun _ => ?_
  split
  · exact modifyName_plain id _
  · exact .pure ()

theorem usePath_plain (path : Path) (type : RefType) (span : Span) (exemption : Exemption)
    (plain : exemption ≠ .suppressed) : Plain (usePath path type span exemption) := by
  unfold usePath
  split
  next owner member _ =>
    exact (prototypeGet_plain owner member span exemption plain false).bind fun _ => .pure none
  next =>
    exact (nameAt_plain path).bind fun id =>
      (reference_plain id type span exemption plain false none).bind fun _ => .pure (some id)

theorem useChain_plain (chain : Chain) (type : RefType) (span : Span) :
    Plain (useChain chain type span .none) := by
  refine (isGlobal_plain chain.path.root).bind fun global => ?_
  split
  · cases chain.certain with
    | some certain =>
      exact (usePath_plain certain .get span .none nofun).bind fun _ =>
        (usePath_plain chain.path type span .conditional nofun).bind fun _ => .pure none
    | none => exact usePath_plain chain.path type span .none nofun
  · exact .pure none

theorem assignPath_plain (path : Path) (span : Span) (kind : NameKind) :
    Plain (assignPath path span kind) := by
  unfold assignPath
  split
  next owner member _ =>
    exact (prototypeGet_plain owner member span .none nofun true).bind fun _ => .pure none
  next =>
    exact (nameAt_plain path).bind fun id =>
      (setName_plain id kind span false).bind fun _ => .pure (some id)

theorem barePath_plain (path : Path) (span : Span) (hasDoc : Bool) :
    Plain (barePath path span hasDoc) := by
  refine (isGlobal_plain path.root).bind fun global => ?_
  split
  · split
    · split
      next owner member _ => exact prototypeGet_plain owner member span .none nofun true
      next => exact (nameAt_plain path).bind fun id => setName_plain id .other span true
    · exact (usePath_plain path .get span .bareExpression nofun).discard
  · exact .pure ()

theorem declare_plain (name : String) (kind : NameKind) (span : Span) :
    Plain (declare name kind span) := by
  have declared : Plain (declared name) := by
    refine (isGlobal_plain name).bind fun global => ?_
    split
    · exact (root_plain name).bind fun id => .pure (some id)
    · exact .pure none
  refine declared.bind fun target => ?_
  cases target with
  | none => exact .pure none
  | some id => exact (setName_plain id kind span false).bind fun _ => .pure (some id)

theorem childOf_plain (target : Option NameId) (key : Option String) :
    Plain (childOf target key) := by
  unfold childOf
  split
  next parent base => exact (child_plain parent base).bind fun id => .pure (some id)
  next => exact .pure none

theorem setKnown_plain (name : Option NameId) (kind : NameKind) (span : Span) :
    Plain (setKnown name kind span) := by
  cases name with
  | none => exact .pure ()
  | some id => exact setName_plain id kind span false

theorem link_plain (target source : Option NameId) : Plain (link target source) := by
  unfold link
  split
  · split
    · exact .pure ()
    · exact modifyName_plain _ _
  · exact .pure ()

theorem abbreviate_plain (key source : Option NameId) : Plain (abbreviate key source) := by
  unfold abbreviate
  split
  · exact modifyName_plain _ _
  · exact .pure ()

theorem hideMembers_plain (target : Option NameId) : Plain (hideMembers target) := by
  cases target with
  | none => exact .pure ()
  | some t => exact modifyName_plain t _

theorem extend_plain (target parent : Option NameId) : Plain (extend target parent) := by
  cases target with
  | none => exact .pure ()
  | some t => exact modifyName_plain t _

theorem prototypeLiteral_plain (path : Path) (value : Expr) : Plain (prototypeLiteral path value) := by
  unfold prototypeLiteral
  split
  next owner _ _ _ => exact (nameAt_plain owner).bind fun id => modifyName_plain id _
  next => exact .pure ()

theorem globalPath?_plain (e : Expr) : Plain (globalPath? e) := by
  unfold globalPath?
  split
  next path _ =>
    refine (isGlobal_plain path.root).bind fun global => ?_
    split
    · exact .pure (some path)
    · exact .pure none
  next => exact .pure none

theorem inheritance?_plain (callee : Expr) (args : List Arg) : Plain (inheritance? callee args) := by
  refine (globalPath?_plain callee).bind fun path => ?_
  split
  · split
    · split
      next parent _ => exact (globalPath?_plain parent).bind fun _ => .pure _
      next child parent _ =>
        refine (globalPath?_plain child).bind fun c => (globalPath?_plain parent).bind fun p => ?_
        split <;> exact .pure _
      next => exact .pure none
    · exact .pure none
  · exact .pure none

theorem inherit_plain (child parent : Path) : Plain (inherit child parent) := by
  unfold inherit
  split
  · exact (nameAt_plain child).bind fun c =>
      (nameAt_plain parent).bind fun p => modifyName_plain c _
  · exact .pure ()

theorem useName_plain (chain : Chain) (span : Span) (use : Use) : Plain (useName chain span use) := by
  cases use with
  | read type => exact (useChain_plain chain type span).discard
  | value target =>
    exact (useChain_plain chain .aliasingGet span).bind fun source => link_plain target source
  | write =>
    refine (isGlobal_plain chain.path.root).bind fun global => ?_
    split
    · exact (assignPath_plain chain.path span .other).discard
    · exact (useChain_plain chain .get span).discard

theorem declareFunctions_plain (ss : List Stmt) : Plain (declareFunctions ss) := by
  induction ss with
  | nil => exact .pure ()
  | cons s ss ih =>
    obtain ⟨span, doc, form⟩ := s
    cases form with
    | funcDecl name nameSpan f =>
      refine Plain.bind ?_ fun _ => ih
      exact (mark_plain _).bind fun _ =>
        (declare_plain name .func nameSpan).discard.bind fun _ => mark_plain false
    | _ => exact ih

end Record
end NameAudit
