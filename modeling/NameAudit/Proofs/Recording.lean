import NameAudit.Proofs.Logs
import NameAudit.Proofs.Occurrences

/-!
What each step of a recording adds. A use of a path is one reference to the name that the path
spells, a chain with a local root is none, and notes about values are none. The walk is put together
from these steps only.
-/
namespace NameAudit

open Namespace (Grows Extends Spelled Notes)

/-! ### Known names -/

namespace Namespace

/-- A name that is known is one of the namespace. -/
def Knows (ns : Namespace) (name : Option NameId) : Prop := ∀ id ∈ name, ns.Has id

/-- A name that is known is a member with the base name of a key. -/
def IsMember (ns : Namespace) (name : Option NameId) (key : Option String) : Prop :=
  ∀ id ∈ name, ns.Has id ∧ (ns.name id).parent ≠ none ∧ key = some (ns.name id).baseName

section
variable {old new : Namespace}

theorem knows_none (ns : Namespace) : ns.Knows none :=
  fun _ member => (Option.not_mem_none _ member).elim

theorem Knows.extends {name : Option NameId} (known : old.Knows name) (further : Extends old new) :
    new.Knows name :=
  fun id member => further.has id (known id member)

theorem IsMember.knows {ns : Namespace} {name : Option NameId} {key : Option String}
    (isMember : ns.IsMember name key) : ns.Knows name :=
  fun id member => (isMember id member).1

theorem IsMember.extends {name : Option NameId} {key : Option String}
    (isMember : old.IsMember name key) (further : Extends old new) : new.IsMember name key := by
  intro id member
  obtain ⟨has, below, same⟩ := isMember id member
  refine ⟨further.has id has, ?_, ?_⟩
  · rw [further.parent id has]
    exact below
  · rw [further.baseName id has]
    exact same

end

end Namespace

namespace Record

variable {a : Surroundings} {ns : Namespace} {span : Span} {exemption : Exemption}

/-! ### Names -/

theorem modifyName_walks {id : NameId} {f : Name → Name} (notes : ns.Notes id f) :
    Walks a ns (modifyName id f) [] := by
  refine yields_of_grows _ (fun space => ((), space.modifyName id f)) (fun _ => rfl)
    (fun _ => rfl) fun space grows _ => ⟨?_, trivial⟩
  exact (Namespace.Step.note id f (notes.extends grows.extends)).grows

theorem root_yields (base : String) :
    Yields a ns (root base) [] fun id later => Spelled later id [base] :=
  yields_of_grows _ (fun space => space.rootOrNew base) (fun _ => rfl)
    (fun space => space.refs_rootOrNew base) fun _ _ forest => forest.rootOrNew base

theorem child_yields {parent : NameId} (has : ns.Has parent) (base : String) :
    Yields a ns (child parent base) [] fun id later => later.Has id ∧
      (later.name id).parent = some parent ∧ (later.name id).baseName = base :=
  yields_of_grows _ (fun space => space.childOrNew parent base) (fun _ => rfl)
    (fun space => space.refs_childOrNew parent base) fun _ grows forest =>
      forest.childOrNew (grows.extends.has parent has) base

theorem nameAt_yields (path : Path) :
    Yields a ns (nameAt path) [] fun id later => Spelled later id (path.root :: path.members) := by
  refine (root_yields path.root).skip fun id later _ forest spelled => ?_
  refine yields_of_grows _ (fun space => space.descendOrNew id path.members) (fun _ => rfl)
    (fun space => space.refs_descendOrNew id path.members) fun space grows further => ?_
  exact further.descendOrNew (spelled.extends forest grows.extends) path.members

/-! ### References -/

/-- One reference to a name was recorded, with its exemption if it has one. -/
def Made (a : Surroundings) (span : Span) (exemption : Exemption) (P : Ref → Prop)
    (refs : List Ref) : Prop :=
  ∃ r, refs = [r] ∧ r.StandsAt a span ∧ (exemption ≠ .none → r.exemption = exemption) ∧ P r

theorem Made.imp {P P' : Ref → Prop} {refs : List Ref} (made : Made a span exemption P refs)
    (weaker : ∀ r, P r → P' r) : Made a span exemption P' refs := by
  obtain ⟨r, one, stands, exempt, holds⟩ := made
  exact ⟨r, one, stands, exempt, weaker r holds⟩

theorem reference_logs {name : NameId} (has : ns.Has name) (type : RefType) (span : Span)
    (exemption : Exemption) (isStub : Bool) (member : Option String) :
    Logs a ns (reference name type span exemption isStub member) fun _ _ =>
      Made a span exemption fun r => r.name = name ∧ r.type = type := by
  intro r here before
  have step : Namespace.Step r.space
      (r.space.addRef (nextRef r name type span exemption isStub member)) :=
    .reference _ (before.extends.has name has) rfl here.order_eq
  have slot : r.slot = a.slot := congrArg Surroundings.slot here.around
  have file : r.file = a.file := congrArg Surroundings.file here.around
  have scopes : r.scopes = a.scopes := congrArg Surroundings.scopes here.around
  refine ⟨⟨here.around, step.forest here.forest, ?_⟩, step.grows, _, Array.toList_push, _, rfl,
    ⟨slot, ?_, ?_, ?_⟩, ?_, rfl, rfl⟩
  · show r.order + 1 = (r.space.refs.push _).size
    rw [Array.size_push, here.order_eq]
  · rw [← file]
    rfl
  · intro start stop
    show span.clamped = span
    rw [Span.clamped, Nat.min_eq_left start, Nat.min_eq_left stop]
  · rw [← scopes]
    rfl
  · intro exempt
    show (if exemption = .none ∧ 0 < r.suppressed then .suppressed else exemption) = exemption
    rw [if_neg fun h => exempt h.1]

theorem mergeKind_notes (id : NameId) (kind : NameKind) : ns.Notes id (·.mergeKind kind) := by
  have same : ∀ n : Name, ∃ k, n.mergeKind kind = { n with kind := k } := by
    intro n
    unfold Name.mergeKind
    split
    · exact ⟨kind, rfl⟩
    · split
      · exact ⟨n.kind, rfl⟩
      · exact ⟨.other, rfl⟩
  refine Namespace.notes_of_unlinked ns id ?_ ?_ ?_ ?_ ?_ <;>
  · intro n
    obtain ⟨k, merged⟩ := same n
    simp [merged, Name.core]

theorem setName_logs {name : NameId} (has : ns.Has name) (kind : NameKind) (span : Span)
    (isStub : Bool) :
    Logs a ns (setName name kind span isStub) fun _ _ =>
      Made a span .none fun r => r.name = name ∧ r.type = .set := by
  refine (reference_logs has .set span .none isStub none).silently fun _ later _ => ?_
  have marked : ∀ space : Namespace, space.Notes name fun n => { n with declaredType := true } :=
    fun space => space.notes_of_unlinked name (fun _ => rfl) (fun _ => rfl) (fun _ => rfl)
      (fun _ => rfl) fun _ => List.Subset.refl _
  have used : ∀ space, Walks a space
      (modify fun r : Recording => { r with declaresType := false }) [] := fun _ =>
    Unmoved.walks ⟨fun _ => rfl, fun _ => rfl, fun _ => rfl⟩
  refine (modifyName_walks (mergeKind_notes name kind)).skip fun _ later _ _ _ => ?_
  refine Logs.keep (fun _ => rfl) fun r _ => ?_
  dsimp only
  split
  · exact (modifyName_walks (marked later)).skip fun _ _ _ _ _ => used _
  · exact used later

/-! ### Paths and chains -/

theorem refersTo_direct {r : Ref} {p : Path} (direct : "prototype" ∉ p.members)
    (spelled : Spelled ns r.name (p.root :: p.members)) : ns.RefersTo r p := by
  rw [Namespace.RefersTo, if_neg direct]
  exact spelled

theorem refersTo_through {r : Ref} {p owner : Path} {member : Option String}
    (found : p.beforePrototype? = some (owner, member)) (type : r.type = .prototypeGet)
    (spelled : Spelled ns r.name (owner.root :: owner.members)) : ns.RefersTo r p := by
  obtain ⟨through, rfl⟩ := Path.beforePrototype?_eq_some found
  rw [Namespace.RefersTo, if_pos through]
  exact ⟨type, spelled⟩

theorem addPrototypeMembers_notes (id : NameId) (members : List String) :
    ns.Notes id (·.addPrototypeMembers members) := by
  refine ns.notes_of_unlinked id (fun _ => rfl) (fun _ => rfl) (fun _ => rfl) (fun _ => rfl) ?_
  exact fun n m known => (n.mem_addPrototypeMembers members m).mpr (.inl known)

theorem prototypeGet_logs {path owner : Path} {member : Option String}
    (found : path.beforePrototype? = some (owner, member)) (span : Span) (exemption : Exemption)
    (isAssigned : Bool) :
    Logs a ns (prototypeGet owner member span exemption isAssigned) fun _ later =>
      Made a span exemption (later.RefersTo · path) := by
  refine (nameAt_yields owner).skip fun id later _ forest spelled => ?_
  have noted : ∀ space, Walks a space
      (if isAssigned = true then modifyName id (·.addPrototypeMembers member.toList) else pure ())
      [] := by
    intro space
    split
    · exact modifyName_walks (addPrototypeMembers_notes id member.toList)
    · exact pure_walks ()
  have recorded := reference_logs (a := a) spelled.has .prototypeGet span exemption false member
  refine (recorded.silently fun _ last _ => noted last).imp fun _ last _ further _ made => ?_
  refine made.imp fun r ⟨name, type⟩ => refersTo_through found type ?_
  exact name ▸ spelled.extends forest further.extends

theorem usePath_logs (path : Path) (type : RefType) (span : Span) (exemption : Exemption) :
    Logs a ns (usePath path type span exemption) fun x later refs =>
      Made a span exemption
        (fun r => later.RefersTo r path ∧ ("prototype" ∉ path.members → r.type = type)) refs ∧
      ∀ id ∈ x, Spelled later id (path.root :: path.members) := by
  unfold usePath
  split
  next owner member found =>
    have through := (Path.beforePrototype?_eq_some found).1
    refine (prototypeGet_logs found span exemption false).returns fun _ later refs _ _ made => ?_
    exact ⟨made.imp fun r refers => ⟨refers, fun direct => absurd through direct⟩,
      fun _ member => (Option.not_mem_none _ member).elim⟩
  next direct =>
    refine (nameAt_yields path).skip fun id later _ forest spelled => ?_
    refine (reference_logs spelled.has type span exemption false none).returns
      fun _ last refs further _ made => ?_
    have stays := spelled.extends forest further.extends
    refine ⟨made.imp fun r ⟨name, type⟩ => ⟨?_, fun _ => type⟩,
      fun _ same => Option.mem_some_iff.mp same ▸ stays⟩
    exact refersTo_direct (Path.beforePrototype?_eq_none direct) (name ▸ stays)

theorem assignPath_logs (path : Path) (span : Span) (kind : NameKind) :
    Logs a ns (assignPath path span kind) fun x later refs =>
      Made a span .none
        (fun r => later.RefersTo r path ∧ ("prototype" ∉ path.members → r.type = .set)) refs ∧
      ∀ id ∈ x, Spelled later id (path.root :: path.members) := by
  unfold assignPath
  split
  next owner member found =>
    have through := (Path.beforePrototype?_eq_some found).1
    refine (prototypeGet_logs found span .none true).returns fun _ later refs _ _ made => ?_
    exact ⟨made.imp fun r refers => ⟨refers, fun direct => absurd through direct⟩,
      fun _ member => (Option.not_mem_none _ member).elim⟩
  next direct =>
    refine (nameAt_yields path).skip fun id later _ forest spelled => ?_
    refine (setName_logs spelled.has kind span false).returns fun _ last refs further _ made => ?_
    have stays := spelled.extends forest further.extends
    refine ⟨made.imp fun r ⟨name, type⟩ => ⟨?_, fun _ => type⟩,
      fun _ same => Option.mem_some_iff.mp same ▸ stays⟩
    exact refersTo_direct (Path.beforePrototype?_eq_none direct) (name ▸ stays)

/-- Whether a name is global depends on the surroundings only. -/
theorem isGlobal_answer {r : Recording} (here : r.StandsIn a) (name : String) :
    (out (isGlobal name) r).1 = Scope.isGlobal a.scopes name := by
  rw [← here.around]
  rfl

theorem Logs.ifGlobal {β : Type} {name : String} {yes no : Record β}
    {Q : β → Namespace → List Ref → Prop}
    (whenGlobal : Scope.isGlobal a.scopes name = true → Logs a ns yes Q)
    (whenLocal : Scope.isGlobal a.scopes name = false → Logs a ns no Q) :
    Logs a ns (isGlobal name >>= fun global => if global = true then yes else no) Q := by
  refine Logs.keep (fun _ => rfl) fun r here => ?_
  rw [isGlobal_answer here]
  cases global : Scope.isGlobal a.scopes name with
  | true => exact whenGlobal global
  | false => exact whenLocal global

theorem accounts_of_local {o : Occurrence} (isLocal : Scope.isGlobal a.scopes o.root = false) :
    Accounts ns [.occurrence a span o] [] := by
  refine Accounts.single ?_
  rw [Site.Records, isLocal, if_neg Bool.false_ne_true]

theorem accounts_of_made {o : Occurrence} {refs : List Ref}
    (isGlobal : Scope.isGlobal a.scopes o.root = true) (plain : o.isConditional = false)
    (made : Made a span exemption (ns.RefersTo · o.path) refs) :
    Accounts ns [.occurrence a span o] refs := by
  obtain ⟨r, one, stands, _, refers⟩ := made
  refine Accounts.single ?_
  rw [Site.Records, if_pos isGlobal, plain, if_neg Bool.false_ne_true]
  exact ⟨r, one, stands, refers⟩

theorem useChain_yields (o : Occurrence) (type : RefType) (span : Span) (exemption : Exemption) :
    Yields a ns (useChain o.chain type span exemption) [.occurrence a span o] fun x later =>
      ∀ id ∈ x, Spelled later id (o.root :: o.path.members) := by
  refine Logs.ifGlobal (fun isGlobal => ?_) fun isLocal => ?_
  · cases conditional : o.isConditional with
    | true =>
      have certain : o.chain.certain = some o.certainPath := by
        rw [Occurrence.chain, conditional]
        rfl
      rw [certain]
      refine (usePath_logs o.certainPath .get span exemption).bind
        fun _ later refs _ forest before => ?_
      refine (usePath_logs o.path type span .conditional).returns
        fun _ last more further _ behind => ?_
      obtain ⟨⟨first, rfl, atFirst, _, refers, _⟩, _⟩ := before
      obtain ⟨⟨second, rfl, atSecond, exempt, whole, _⟩, _⟩ := behind
      refine ⟨Accounts.single ?_, fun _ member => (Option.not_mem_none _ member).elim⟩
      rw [Site.Records, if_pos (show Scope.isGlobal a.scopes o.root = true from isGlobal),
        if_pos conditional]
      exact ⟨first, second, rfl, atFirst, atSecond,
        refersTo_extends forest further.extends refers, whole, exempt (by decide)⟩
    | false =>
      rw [Occurrence.chain_certain_eq_none conditional]
      refine (usePath_logs o.path type span exemption).imp fun _ later refs _ _ used => ?_
      obtain ⟨made, known⟩ := used
      exact ⟨accounts_of_made isGlobal conditional (made.imp fun _ => And.left), known⟩
  · exact pure_logs fun _ _ _ =>
      ⟨accounts_of_local isLocal, fun _ member => (Option.not_mem_none _ member).elim⟩

theorem useChain_walks (o : Occurrence) (type : RefType) (span : Span) (exemption : Exemption) :
    Walks a ns (useChain o.chain type span exemption) [.occurrence a span o] :=
  (useChain_yields o type span exemption).walks

/-- A variable is a root. -/
theorem useVariable_yields (name : String) (type : RefType) (span : Span) :
    Yields a ns (useChain ⟨⟨name, []⟩, none⟩ type span .none) [.occurrence a span ⟨name, []⟩]
      fun x later => ∀ id ∈ x, later.Has id ∧ (later.name id).parent = none :=
  (useChain_yields ⟨name, []⟩ type span .none).imp fun _ _ _ _ forest ⟨accounts, spelled⟩ =>
    ⟨accounts, fun id member => ⟨(spelled id member).has, (spelled id member).isRoot forest⟩⟩

theorem assignPath_yields {o : Occurrence} (isGlobal : Scope.isGlobal a.scopes o.root = true)
    (plain : o.isConditional = false) (span : Span) (kind : NameKind) :
    Yields a ns (assignPath o.path span kind) [.occurrence a span o] fun x later =>
      ∀ id ∈ x, Spelled later id (o.root :: o.path.members) :=
  (assignPath_logs o.path span kind).imp fun _ _ _ _ _ ⟨made, known⟩ =>
    ⟨accounts_of_made isGlobal plain (made.imp fun _ => And.left), known⟩

theorem barePath_walks {o : Occurrence} (plain : o.isConditional = false) (span : Span)
    (hasDoc : Bool) : Walks a ns (barePath o.path span hasDoc) [.occurrence a span o] := by
  refine Logs.ifGlobal (fun isGlobal => ?_) fun isLocal => ?_
  · split
    · split
      next owner member found =>
        refine (prototypeGet_logs found span .none true).imp fun _ later refs _ _ made => ?_
        exact ⟨accounts_of_made isGlobal plain made, trivial⟩
      next direct =>
        refine (nameAt_yields o.path).skip fun id later _ forest spelled => ?_
        refine (setName_logs spelled.has .other span true).imp fun _ last refs further _ made => ?_
        refine ⟨accounts_of_made isGlobal plain (made.imp fun r ⟨name, _⟩ => ?_), trivial⟩
        have stays := spelled.extends forest further.extends
        exact refersTo_direct (Path.beforePrototype?_eq_none direct) (name ▸ stays)
    · refine (usePath_logs o.path .get span .bareExpression).returns
        fun _ later refs _ _ ⟨made, _⟩ => ?_
      exact ⟨accounts_of_made isGlobal plain (made.imp fun _ => And.left), trivial⟩
  · exact pure_logs fun _ _ _ => ⟨accounts_of_local isLocal, trivial⟩

/-! ### Declarations and keys -/

theorem declared_yields (name : String) :
    Yields a ns (declared name) [] fun x later =>
      Scope.isGlobal a.scopes name = true ∧ (∃ id, x = some id ∧ Spelled later id [name]) ∨
        Scope.isGlobal a.scopes name = false ∧ x = none := by
  refine Logs.ifGlobal (fun isGlobal => ?_) fun isLocal => ?_
  · refine (root_yields name).returns fun id later refs _ _ ⟨accounts, spelled⟩ => ?_
    exact ⟨accounts, .inl ⟨isGlobal, id, rfl, spelled⟩⟩
  · exact pure_logs fun later _ _ => ⟨Accounts.nil later, .inr ⟨isLocal, rfl⟩⟩

theorem declare_logs (name : String) (kind : NameKind) (span : Span) :
    Logs a ns (declare name kind span) fun x later refs =>
      Scope.isGlobal a.scopes name = true ∧ (∀ id ∈ x, Spelled later id [name]) ∧
          Made a span .none (fun r => r.type = .set ∧ Spelled later r.name [name]) refs ∨
        Scope.isGlobal a.scopes name = false ∧ x = none ∧ refs = [] := by
  refine (declared_yields name).skip fun x later _ forest known => ?_
  rcases known with ⟨isGlobal, id, rfl, spelled⟩ | ⟨isLocal, rfl⟩
  · refine (setName_logs spelled.has kind span false).returns fun _ last refs further _ made => ?_
    have stays := spelled.extends forest further.extends
    exact .inl ⟨isGlobal, fun _ same => Option.mem_some_iff.mp same ▸ stays,
      made.imp fun r ⟨name, type⟩ => ⟨type, name ▸ stays⟩⟩
  · exact pure_logs fun _ _ _ => .inr ⟨isLocal, rfl, rfl⟩

/-- A variable is an occurrence where it is declared. -/
theorem declare_occurs (name : String) (kind : NameKind) (span : Span) :
    Yields a ns (declare name kind span) [.occurrence a span ⟨name, []⟩] fun x later =>
      later.Knows x := by
  refine (declare_logs name kind span).imp fun x later refs _ _ recorded => ?_
  rcases recorded with ⟨isGlobal, known, made⟩ | ⟨isLocal, rfl, rfl⟩
  · refine ⟨accounts_of_made isGlobal rfl (made.imp fun r ⟨_, spelled⟩ => ?_),
      fun id member => (known id member).has⟩
    exact refersTo_direct List.not_mem_nil spelled
  · exact ⟨accounts_of_local isLocal, later.knows_none⟩

/-- The declaration of a function or a class defines its name. -/
theorem declare_defines (name : String) (kind : NameKind) (span : Span) :
    Yields a ns (declare name kind span) [.definition a span name] fun x later =>
      later.Knows x := by
  refine (declare_logs name kind span).imp fun x later refs _ _ recorded => ?_
  rcases recorded with ⟨_, known, r, one, stands, _, type, spelled⟩ | ⟨_, rfl, none⟩
  · exact ⟨Accounts.single <| .inr ⟨r, one, stands, type, spelled.has,
      (Option.some_inj.mp spelled.baseName).symm⟩, fun id member => (known id member).has⟩
  · exact ⟨Accounts.single (.inl none), later.knows_none⟩

/-- A known key leads to a child of the target. -/
theorem childOf_below {target : Option NameId} (known : ns.Knows target) (key : Option String) :
    Yields a ns (childOf target key) [] fun x later => ∀ id ∈ x, ∃ parent ∈ target,
      later.Has id ∧ (later.name id).parent = some parent ∧ key = some (later.name id).baseName := by
  unfold childOf
  split
  next parent base =>
    refine (child_yields (known parent rfl) base).returns
      fun id later refs _ _ ⟨accounts, has, below, same⟩ => ⟨accounts, ?_⟩
    intro _ member
    obtain rfl := Option.mem_some_iff.mp member
    exact ⟨parent, rfl, has, below, congrArg some same.symm⟩
  next =>
    exact pure_logs fun later _ _ =>
      ⟨Accounts.nil later, fun _ member => (Option.not_mem_none _ member).elim⟩

theorem childOf_yields {target : Option NameId} (known : ns.Knows target) (key : Option String) :
    Yields a ns (childOf target key) [] fun x later => later.IsMember x key := by
  refine (childOf_below known key).imp fun x later _ _ _ ⟨accounts, child⟩ => ⟨accounts, ?_⟩
  intro id member
  obtain ⟨parent, _, has, below, same⟩ := child id member
  exact ⟨has, below ▸ Option.some_ne_none parent, same⟩

theorem setKnown_walks {name : Option NameId} {key : Option String}
    (isMember : ns.IsMember name key) (kind : NameKind) (span : Span) :
    Walks a ns (setKnown name kind span) (Site.ofKey a span key) := by
  cases name with
  | none =>
    refine pure_logs fun later _ _ => ⟨?_, trivial⟩
    cases key with
    | none => exact Accounts.nil later
    | some base => exact Accounts.single (.inl rfl)
  | some id =>
    obtain ⟨has, _, rfl⟩ := isMember id rfl
    refine (setName_logs has kind span false).imp fun _ later refs further _ made => ⟨?_, trivial⟩
    obtain ⟨r, one, stands, _, name, type⟩ := made
    refine Accounts.single (.inr ⟨r, one, stands, type, ?_, ?_⟩)
    · rw [name]
      exact further.extends.has id has
    · rw [name]
      exact further.extends.baseName id has

/-! ### Notes about values -/

theorem linkTo_walks {source target : NameId} (has : ns.Has source) (other : source ≠ target) :
    Walks a ns (linkTo source target) [] := by
  refine modifyName_walks
    ⟨fun _ => rfl, fun n t found => ?_, fun n t => .inl, fun n t => .inl, fun n => List.Subset.refl _⟩
  obtain rfl : source = t := Option.some_inj.mp found
  exact .inr ⟨has, other⟩

theorem link_walks (target : Option NameId) {source : Option NameId} (known : ns.Knows source) :
    Walks a ns (link target source) [] := by
  unfold link
  split
  next t s =>
    split
    · exact pure_walks ()
    next other => exact linkTo_walks (known s rfl) (Ne.symm other)
  next => exact pure_walks ()

theorem abbreviate_walks {key source : Option NameId} (known : ns.Knows source)
    (other : ∀ k ∈ key, ∀ s ∈ source, s ≠ k) : Walks a ns (abbreviate key source) [] := by
  unfold abbreviate
  split
  next k s => exact linkTo_walks (known s rfl) (other k rfl s rfl)
  next => exact pure_walks ()

theorem hideMembers_walks (target : Option NameId) : Walks a ns (hideMembers target) [] := by
  unfold hideMembers
  split
  next t =>
    exact modifyName_walks <|
      ns.notes_of_unlinked t (fun _ => rfl) (fun _ => rfl) (fun _ => rfl) (fun _ => rfl)
        fun _ => List.Subset.refl _
  next => exact pure_walks ()

theorem extend_walks (target : Option NameId) {parent : Option NameId} (known : ns.Knows parent) :
    Walks a ns (extend target parent) [] := by
  unfold extend
  split
  next t =>
    refine modifyName_walks
      ⟨fun _ => rfl, fun n s => .inl, fun n s found => ?_, fun n s => .inl,
        fun n => List.Subset.refl _⟩
    cases parent with
    | none => cases found
    | some p =>
      obtain rfl : p = s := by simpa using found
      exact .inr (known p rfl)
  next => exact pure_walks ()

theorem prototypeLiteral_walks (path : Path) (value : Expr) :
    Walks a ns (prototypeLiteral path value) [] := by
  unfold prototypeLiteral
  split
  next owner keys _ _ =>
    exact (nameAt_yields owner).skip fun id later _ _ _ =>
      modifyName_walks (addPrototypeMembers_notes id keys)
  next => exact pure_walks ()

theorem inherit_walks (child parent : Path) : Walks a ns (inherit child parent) [] := by
  unfold inherit
  split
  next =>
    refine (nameAt_yields child).skip fun c later _ _ _ => ?_
    refine (nameAt_yields parent).skip fun p last _ _ spelled => ?_
    refine modifyName_walks
      ⟨fun _ => rfl, fun n t => .inl, fun n t => .inl, fun n t found => ?_,
        fun n => List.Subset.refl _⟩
    obtain rfl : p = t := Option.some_inj.mp found
    exact .inr spelled.has
  next => exact pure_walks ()

/-! ### Steps that only look -/

theorem globalPath?_keeps (e : Expr) : Keeps (globalPath? e) := by
  intro r
  unfold globalPath?
  split
  next path _ =>
    show (out (if _ then pure (some path) else pure none) r).2 = r
    split <;> rfl
  next => rfl

theorem globalPath?_eq_some {e : Expr} {r : Recording} {path : Path} (here : r.StandsIn a)
    (found : (out (globalPath? e) r).1 = some path) :
    ∃ o, e.occurrence? = some o ∧ o.isConditional = false ∧ o.path = path ∧
      Scope.isGlobal a.scopes o.root = true := by
  have scopes : r.scopes = a.scopes := congrArg Surroundings.scopes here.around
  unfold globalPath? at found
  split at found
  next p isPath =>
    change (out (if Scope.isGlobal r.scopes p.root = true then pure (some p) else pure none) r).1 =
      some path at found
    split at found
    next isGlobal =>
      obtain rfl : p = path := Option.some_inj.mp found
      obtain ⟨o, occurrence, plain, rfl⟩ := Expr.path?_eq_some isPath
      exact ⟨o, occurrence, plain, rfl, scopes ▸ isGlobal⟩
    next => cases found
  next => cases found

theorem globalPath?_answer {e : Expr} {r : Recording} {path : Path} (here : r.StandsIn a)
    (isPath : e.path? = some path) (isGlobal : Scope.isGlobal a.scopes path.root = true) :
    (out (globalPath? e) r).1 = some path := by
  have scopes : r.scopes = a.scopes := congrArg Surroundings.scopes here.around
  rw [globalPath?, isPath]
  change (out (if Scope.isGlobal r.scopes path.root = true then pure (some path)
    else pure none) r).1 = _
  rw [scopes, isGlobal, if_pos rfl]
  rfl

theorem inheritance?_keeps (callee : Expr) (args : List Arg) : Keeps (inheritance? callee args) := by
  refine (globalPath?_keeps callee).bind fun path => ?_
  have answers : ∀ {α : Type} (x : α), Keeps (pure x) := fun _ _ => rfl
  split
  · split
    · split
      next => exact (globalPath?_keeps _).bind fun _ => answers _
      next =>
        refine (globalPath?_keeps _).bind fun _ => (globalPath?_keeps _).bind fun _ => ?_
        split <;> exact answers _
      next => exact answers _
    · exact answers _
  · exact answers _

/-- The arguments of a call take no name, and what is noted after them adds no reference. -/
theorem Logs.argumentUse {β : Type} {callee : Expr} {args : List Arg}
    {f : Use × Record Unit → Record β} {Q : β → Namespace → List Ref → Prop}
    (next : ∀ type after, (∀ space, Walks a space after []) → Logs a ns (f (.read type, after)) Q) :
    Logs a ns (argumentUse callee args >>= f) Q := by
  refine Logs.keep ?_ fun r _ => ?_
  · refine (inheritance?_keeps callee args).bind fun found => ?_
    split <;> exact fun _ => rfl
  · unfold Record.argumentUse
    rw [out_bind]
    split
    next child parent _ => exact next .get _ fun _ => inherit_walks child parent
    next => exact next .aliasingGet _ fun _ => pure_walks ()

/-! ### Occurrences by their use -/

theorem useName_walks (o : Occurrence) (span : Span) {use : Use} (known : ns.Knows use.target) :
    Walks a ns (useName o.chain span use) [.occurrence a span o] := by
  cases use with
  | read type => exact (useChain_walks o type span .none).discard
  | value target =>
    refine (useChain_yields o .aliasingGet span .none).bind_silent fun source later grows spelled => ?_
    exact link_walks target fun id member => (spelled id member).has
  | write =>
    refine Logs.keep (fun _ => rfl) fun r here => ?_
    rw [isGlobal_answer here]
    split
    next both =>
      obtain ⟨certain, isGlobal⟩ := Bool.and_eq_true_iff.mp both
      have plain : o.isConditional = false := by
        cases conditional : o.isConditional with
        | true => simp [Occurrence.chain, conditional] at certain
        | false => rfl
      exact (assignPath_yields isGlobal plain span .other).walks.discard
    next => exact (useChain_walks o .get span .none).discard

theorem useChainOr_yields {e : Expr} (type : RefType) {otherwise : Record Unit}
    (walks : Walks a ns otherwise (e.sites a)) :
    Yields a ns (useChainOr e type otherwise) (e.sites a) fun x later => later.Knows x := by
  unfold useChainOr
  rw [Expr.chain?_eq]
  cases found : e.occurrence? with
  | none =>
    refine Logs.returns walks fun _ later _ _ _ ⟨accounts, _⟩ => ⟨accounts, later.knows_none⟩
  | some o =>
    rw [Expr.sites_of_occurrence a found]
    exact (useChain_yields o type e.span .none).imp fun _ _ _ _ _ ⟨accounts, spelled⟩ =>
      ⟨accounts, fun id member => (spelled id member).has⟩

/-! ### Scopes and comments -/

theorem Logs.inScope {scope : Scope} {step : Record Unit} {Q : Unit → Namespace → List Ref → Prop}
    (logs : Logs ⟨a.slot, a.file, scope :: a.scopes⟩ ns step Q) :
    Logs a ns (inScope scope step) Q := by
  intro r here before
  have inside : { r with scopes := scope :: r.scopes }.StandsIn
      ⟨a.slot, a.file, scope :: a.scopes⟩ := by
    refine ⟨?_, here.forest, here.order_eq⟩
    rw [← here.around]
    rfl
  obtain ⟨there, grows, refs, added, holds⟩ := logs _ inside before
  refine ⟨⟨?_, there.forest, there.order_eq⟩, grows, refs, added, holds⟩
  exact (congrArg (fun b : Surroundings => { b with scopes := b.scopes.tail }) there.around :)

theorem Logs.inBlock {names : List String} {step : Record Unit}
    {Q : Unit → Namespace → List Ref → Prop} (logs : Logs (a.inBlock names) ns step Q) :
    Logs a ns (inBlock names step) Q :=
  Logs.inScope logs

theorem Logs.inFunction {names : List String} {step : Record Unit}
    {Q : Unit → Namespace → List Ref → Prop} (logs : Logs (a.inFunction names) ns step Q) :
    Logs a ns (inFunction names step) Q :=
  Logs.inScope logs

theorem suppressed_unmoved (f : Nat → Nat) :
    Unmoved (modify fun r => { r with suppressed := f r.suppressed }) :=
  ⟨fun _ => rfl, fun _ => rfl, fun _ => rfl⟩

theorem mark_unmoved (mark : Bool) : Unmoved (modify fun r => { r with declaresType := mark }) :=
  ⟨fun _ => rfl, fun _ => rfl, fun _ => rfl⟩

section
variable {step : Record Unit} {Q : Unit → Namespace → List Ref → Prop}

theorem Logs.underDoc (doc : Option DocComment) (logs : Logs a ns step Q) :
    Logs a ns (underDoc doc step) Q := by
  unfold Record.underDoc
  split
  · exact Logs.between (suppressed_unmoved (· + 1)) (suppressed_unmoved (· - 1)) logs
  · exact logs

theorem Logs.markingType (mark : Bool) (logs : Logs a ns step Q) :
    Logs a ns (markingType mark step) Q :=
  Logs.between (mark_unmoved mark) (mark_unmoved false) logs

theorem Logs.withoutMark (logs : Logs a ns step Q) : Logs a ns (withoutMark step) Q :=
  Logs.keep (fun _ => rfl) fun _ _ => Logs.between (mark_unmoved false) (mark_unmoved _) logs

end

theorem declareFunctions_walks (body : List Stmt) :
    Walks a ns (declareFunctions body) (Stmt.functionSites a body) := by
  induction body generalizing ns with
  | nil => exact pure_walks ()
  | cons s body ih =>
    obtain ⟨span, doc, form⟩ := s
    cases form with
    | funcDecl name nameSpan f =>
      exact Walks.seq (Logs.markingType _ (declare_defines name .func nameSpan).walks.discard) ih
    | _ => exact ih

theorem afterFunctions_walks (body : List Stmt) {walk : Record Unit} {sites : List Site}
    (walks : Walks a ns walk sites) :
    Walks a ns (afterFunctions body walk) (Stmt.functionSites a body ++ sites) :=
  (declareFunctions_walks body).seq walks

end Record
end NameAudit
