import NameAudit.Proofs.Parts
import NameAudit.Proofs.Walk

/-!
How the walk of a node passes through its parts. `Tours` says of a step, besides what `Logs` says, that
it runs the walk of each of some parts on its way, and that each reference that it adds comes from one
of these or has a root that is admitted. It is proved of every node with its direct parts, and composes
along `>>=` as `Logs` does. Admitted are all names that are global around the node, at least; as the
rest is free, one theorem tells which nodes are walked and which roots their references have.
-/
namespace NameAudit

open Namespace (Grows Extends Spelled)

/-- The walk of a node, with the use of it when it is an expression. -/
def Node.walk (use : Use) : Node → Record Unit
  | .expr e => e.walk use
  | .pattern p => p.walk
  | .func ownName f => f.walk ownName
  | .staticBlock ss =>
    Record.inFunction (Stmt.declaredNamesOf ss) (Record.afterFunctions ss (Stmt.walkAll ss))
  | .stmts ss => Record.afterFunctions ss (Stmt.walkAll ss)
  | .stmt s => s.walk
  | .block b => b.walk
  | .branches bs => Record.inBlock (Branch.lexicalNames bs) (Branch.walkAll bs)
  | .handler h => Handler.walkOption (some h)

/-- All names that are global at some surroundings are admitted. -/
def Surroundings.Admits (a : Surroundings) (roots : String → Prop) : Prop :=
  ∀ root, Scope.isGlobal a.scopes root = true → roots root

/-- A name of a namespace has an admitted root. -/
def Namespace.RootedIn (ns : Namespace) (roots : String → Prop) (id : NameId) : Prop :=
  ∃ root members, Spelled ns id (root :: members) ∧ roots root

/-- A name that is known has an admitted root. -/
def Namespace.KnowsIn (ns : Namespace) (roots : String → Prop) (name : Option NameId) : Prop :=
  ∀ id ∈ name, ns.RootedIn roots id

/-- A node is walked at its surroundings, from a recording to another. -/
def Walked (roots : String → Prop) (x : Located) (before after : Recording) : Prop :=
  ∃ use : Use, before.space.KnowsIn roots use.target ∧ before.StandsIn x.1 ∧
    after = (Record.out (x.2.walk use) before).2

/-- A node is walked between two namespaces. -/
structure Leg (roots : String → Prop) (start stop : Namespace) (x : Located)
    (before after : Recording) : Prop where
  enters : Grows start before.space
  walked : Walked roots x before after
  leaves : Grows after.space stop

/-- Between two namespaces some parts are walked, and references are added. -/
structure Passes (roots : String → Prop) (start stop : Namespace) (parts : List Located)
    (refs : List Ref) : Prop where
  legs : ∀ x ∈ parts, x.2.isName = false → ∃ before after, Leg roots start stop x before after
  /-- A reference has an admitted root, or comes from a part. -/
  sources : ∀ r ∈ refs, stop.RootedIn roots r.name ∨ ∃ x ∈ parts, x.1.Admits roots ∧
    ∃ before after added, Leg roots start stop x before after ∧
      after.space.refs.toList = before.space.refs.toList ++ added ∧ r ∈ added

section
variable {roots : String → Prop} {old new start middle stop : Namespace}

theorem Namespace.RootedIn.extends {id : NameId} (rooted : old.RootedIn roots id)
    (forest : old.Forest) (further : Extends old new) : new.RootedIn roots id := by
  obtain ⟨root, members, spelled, admitted⟩ := rooted
  exact ⟨root, members, spelled.extends forest further, admitted⟩

theorem Namespace.knowsIn_none (ns : Namespace) : ns.KnowsIn roots none :=
  fun _ member => (Option.not_mem_none _ member).elim

theorem Namespace.KnowsIn.extends {name : Option NameId} (known : old.KnowsIn roots name)
    (forest : old.Forest) (further : Extends old new) : new.KnowsIn roots name :=
  fun id member => (known id member).extends forest further

theorem Namespace.KnowsIn.knows {name : Option NameId} (known : old.KnowsIn roots name) :
    old.Knows name := by
  intro id member
  obtain ⟨_, _, spelled, _⟩ := known id member
  exact spelled.has

theorem Surroundings.Admits.inScope {a : Surroundings} (admits : a.Admits roots) (scope : Scope) :
    Surroundings.Admits { a with scopes := scope :: a.scopes } roots := by
  intro root isGlobal
  refine admits root ?_
  rw [Scope.isGlobal, List.any_cons, Bool.not_or, Bool.and_eq_true] at isGlobal
  exact isGlobal.2

theorem Surroundings.Admits.inBlock {a : Surroundings} (admits : a.Admits roots)
    (names : List String) : (a.inBlock names).Admits roots :=
  admits.inScope _

theorem Surroundings.Admits.inFunction {a : Surroundings} (admits : a.Admits roots)
    (names : List String) : (a.inFunction names).Admits roots :=
  admits.inScope _

/-! ### Passing through parts -/

theorem Leg.widen {x : Located} {before after : Recording} (leg : Leg roots middle stop x before after)
    (earlier : Grows start middle) {last : Namespace} (later : Grows stop last) :
    Leg roots start last x before after :=
  ⟨earlier.trans leg.enters, leg.walked, leg.leaves.trans later⟩

theorem Passes.nil : Passes roots start stop [] [] :=
  ⟨fun _ member => (List.not_mem_nil member).elim, fun _ member => (List.not_mem_nil member).elim⟩

theorem Passes.widen {parts : List Located} {refs : List Ref}
    (passes : Passes roots middle stop parts refs) (forest : stop.Forest)
    (earlier : Grows start middle) {last : Namespace} (later : Grows stop last) :
    Passes roots start last parts refs := by
  refine ⟨fun x member proper => ?_, fun r member => ?_⟩
  · obtain ⟨before, after, leg⟩ := passes.legs x member proper
    exact ⟨before, after, leg.widen earlier later⟩
  · rcases passes.sources r member with rooted | ⟨x, part, admits, before, after, added, leg, rest⟩
    · exact .inl (rooted.extends forest later.extends)
    · exact .inr ⟨x, part, admits, before, after, added, leg.widen earlier later, rest⟩

theorem Passes.append {parts others : List Located} {refs more : List Ref}
    (first : Passes roots start stop parts refs) (second : Passes roots start stop others more) :
    Passes roots start stop (parts ++ others) (refs ++ more) := by
  refine ⟨fun x member proper => ?_, fun r member => ?_⟩
  · rcases List.mem_append.mp member with here | there
    · exact first.legs x here proper
    · exact second.legs x there proper
  · rcases List.mem_append.mp member with here | there
    · refine (first.sources r here).imp_right fun ⟨x, part, rest⟩ => ?_
      exact ⟨x, List.mem_append_left others part, rest⟩
    · refine (second.sources r there).imp_right fun ⟨x, part, rest⟩ => ?_
      exact ⟨x, List.mem_append_right parts part, rest⟩

/-- References with admitted roots, and parts that are names. -/
theorem Passes.names {parts : List Located} {refs : List Ref}
    (rooted : ∀ r ∈ refs, stop.RootedIn roots r.name) (names : ∀ x ∈ parts, x.2.isName = true) :
    Passes roots start stop parts refs := by
  refine ⟨fun x member proper => ?_, fun r member => .inl (rooted r member)⟩
  cases (names x member).symm.trans proper

end

namespace Record

/-- The step walks some parts, `P` holds of its answer, and its references come from these parts or
    have admitted roots. -/
abbrev Tours {α : Type} (roots : String → Prop) (a : Surroundings) (ns : Namespace) (m : Record α)
    (parts : List Located) (P : α → Namespace → Prop) : Prop :=
  Logs a ns m fun x later refs => Passes roots ns later parts refs ∧ P x later

/-- The step walks some parts. -/
abbrev WalksParts (roots : String → Prop) (a : Surroundings) (ns : Namespace) (m : Record Unit)
    (parts : List Located) : Prop :=
  Tours roots a ns m parts fun _ _ => True

section
variable {roots : String → Prop} {a : Surroundings} {ns : Namespace} {α β : Type}
variable {m : Record α} {f : α → Record β} {parts others : List Located}
variable {P : α → Namespace → Prop} {Q : β → Namespace → Prop}

theorem Tours.bind (first : Tours roots a ns m parts P)
    (next : ∀ x later, Grows ns later → later.Forest → P x later →
      Tours roots a later (f x) others Q) :
    Tours roots a ns (m >>= f) (parts ++ others) Q := by
  refine Logs.bind first fun x later refs grows forest ⟨passes, holds⟩ => ?_
  refine Logs.imp (next x later grows forest holds) fun y last more further lastForest known => ?_
  obtain ⟨passesMore, holdsMore⟩ := known
  exact ⟨(passes.widen forest (Grows.refl ns) further).append
    (passesMore.widen lastForest grows (Grows.refl last)), holdsMore⟩

theorem WalksParts.seq {m n : Record Unit} (first : WalksParts roots a ns m parts)
    (second : ∀ later, Grows ns later → later.Forest → WalksParts roots a later n others) :
    WalksParts roots a ns (m >>= fun _ => n) (parts ++ others) :=
  Tours.bind first fun _ later grows forest _ => second later grows forest

/-- A step without parts, followed by any other. -/
theorem Tours.skip (first : Tours roots a ns m [] P)
    (next : ∀ x later, Grows ns later → later.Forest → P x later →
      Tours roots a later (f x) others Q) :
    Tours roots a ns (m >>= f) others Q :=
  Tours.bind first next

theorem WalksParts.skip {m n : Record Unit} (first : WalksParts roots a ns m [])
    (second : ∀ later, Grows ns later → later.Forest → WalksParts roots a later n others) :
    WalksParts roots a ns (m >>= fun _ => n) others :=
  Tours.skip first fun _ later grows forest _ => second later grows forest

/-- A step followed by one without parts. -/
theorem Tours.bind_bare (first : Tours roots a ns m parts P)
    (next : ∀ x later, Grows ns later → later.Forest → P x later →
      Tours roots a later (f x) [] Q) :
    Tours roots a ns (m >>= f) parts Q :=
  List.append_nil parts ▸ Tours.bind first next

/-- A step that adds no reference. -/
theorem Yields.tours (yields : Yields a ns m [] P) : Tours roots a ns m [] P :=
  Logs.imp yields fun _ _ _ _ _ ⟨accounts, holds⟩ => ⟨accounts.eq_nil ▸ Passes.nil, holds⟩

/-- A step whose references have admitted roots. -/
theorem tours_of_rooted (logs : Logs a ns m fun x later refs =>
      (∀ r ∈ refs, later.RootedIn roots r.name) ∧ P x later) : Tours roots a ns m [] P :=
  logs.imp fun _ _ _ _ _ ⟨rooted, holds⟩ =>
    ⟨Passes.names rooted fun _ member => (List.not_mem_nil member).elim, holds⟩

/-- A step that stands for parts which are names. -/
theorem Tours.names (tours : Tours roots a ns m [] P) (names : ∀ x ∈ parts, x.2.isName = true) :
    Tours roots a ns m parts P := by
  refine tours.imp fun x later refs _ _ ⟨passes, holds⟩ => ⟨Passes.names (fun r member => ?_) names, holds⟩
  refine (passes.sources r member).resolve_right ?_
  rintro ⟨_, none, _⟩
  exact List.not_mem_nil none

end

/-! ### Names and references -/

section
variable {roots : String → Prop} {a : Surroundings} {ns : Namespace} {span : Span}

theorem rooted_of_refersTo {r : Ref} {p : Path} (refers : ns.RefersTo r p) (admitted : roots p.root) :
    ns.RootedIn roots r.name := by
  unfold Namespace.RefersTo at refers
  split at refers
  · exact ⟨_, _, refers.2, admitted⟩
  · exact ⟨_, _, refers, admitted⟩

/-- The references of an occurrence have its root, which is global. -/
theorem rooted_of_accounts (admits : a.Admits roots) {o : Occurrence} {refs : List Ref}
    (accounts : Accounts ns [.occurrence a span o] refs) :
    ∀ r ∈ refs, ns.RootedIn roots r.name := by
  obtain ⟨_, recorded, rfl⟩ := accounts
  cases recorded with | cons records none =>
  cases none
  intro r member
  rw [List.flatten_cons, List.flatten_nil, List.append_nil] at member
  simp only [Site.Records] at records
  split at records
  next isGlobal =>
    have admitted := admits o.root isGlobal
    split at records
    next =>
      obtain ⟨first, second, rfl, _, _, certain, whole, _⟩ := records
      rcases List.mem_pair.mp member with rfl | rfl
      · exact rooted_of_refersTo certain admitted
      · exact rooted_of_refersTo whole admitted
    next =>
      obtain ⟨only, rfl, _, refers⟩ := records
      exact List.mem_singleton.mp member ▸ rooted_of_refersTo refers admitted
  next =>
    rw [records] at member
    cases member

theorem Yields.toursOccurrence {α : Type} {m : Record α} {o : Occurrence} {P : α → Namespace → Prop}
    (admits : a.Admits roots) (yields : Yields a ns m [.occurrence a span o] P) :
    Tours roots a ns m [] P :=
  tours_of_rooted <| Logs.imp yields fun _ _ _ _ _ ⟨accounts, holds⟩ =>
    ⟨rooted_of_accounts admits accounts, holds⟩

theorem useChain_tours (admits : a.Admits roots) (o : Occurrence) (type : RefType) (span : Span)
    (exemption : Exemption) :
    Tours roots a ns (useChain o.chain type span exemption) [] fun x later =>
      later.KnowsIn roots x := by
  cases isGlobal : Scope.isGlobal a.scopes o.root with
  | true =>
    refine Logs.imp (Yields.toursOccurrence admits (useChain_yields o type span exemption))
      fun x later refs _ _ ⟨passes, spelled⟩ => ⟨passes, fun id member => ?_⟩
    exact ⟨o.root, o.path.members, spelled id member, admits o.root isGlobal⟩
  | false =>
    refine Logs.ifGlobal (fun global => ?_) fun _ => ?_
    · cases isGlobal.symm.trans global
    · exact pure_logs fun later _ _ => ⟨Passes.nil, later.knowsIn_none⟩

theorem useName_tours (admits : a.Admits roots) (o : Occurrence) (span : Span) {use : Use}
    (known : ns.Knows use.target) : WalksParts roots a ns (useName o.chain span use) [] :=
  Yields.toursOccurrence admits (useName_walks o span known)

theorem declare_tours (admits : a.Admits roots) (name : String) (kind : NameKind) (span : Span) :
    Tours roots a ns (declare name kind span) [] fun x later => later.KnowsIn roots x := by
  refine tours_of_rooted ((declare_logs name kind span).imp fun x later refs _ _ recorded => ?_)
  rcases recorded with ⟨isGlobal, known, r, rfl, _, _, _, spelled⟩ | ⟨_, rfl, rfl⟩
  · have admitted := admits name isGlobal
    refine ⟨fun q member => ?_, fun id member => ⟨name, [], known id member, admitted⟩⟩
    exact List.mem_singleton.mp member ▸ ⟨name, [], spelled, admitted⟩
  · exact ⟨fun _ member => (List.not_mem_nil member).elim, later.knowsIn_none⟩

/-- The child of a name has the root of the name. -/
theorem childOf_tours (forest : ns.Forest) {target : Option NameId}
    (known : ns.KnowsIn roots target) (key : Option String) :
    Tours roots a ns (childOf target key) [] fun x later =>
      later.IsMember x key ∧ later.KnowsIn roots x := by
  refine Logs.imp (childOf_below known.knows key) fun x later refs grows stays ⟨accounts, child⟩ => ?_
  refine ⟨accounts.eq_nil ▸ Passes.nil, fun id member => ?_, fun id member => ?_⟩
  · obtain ⟨parent, _, has, below, same⟩ := child id member
    exact ⟨has, below ▸ Option.some_ne_none parent, same⟩
  · obtain ⟨parent, isTarget, has, below, same⟩ := child id member
    obtain ⟨root, members, spelled, admitted⟩ :=
      (known parent isTarget).extends forest grows.extends
    refine ⟨root, members ++ [(later.name id).baseName], ⟨has, ?_⟩, admitted⟩
    rw [stays.spelling_of_child below, spelled.spelling]
    rfl

theorem setKnown_tours (forest : ns.Forest) {name : Option NameId} (known : ns.KnowsIn roots name)
    (kind : NameKind) (span : Span) : WalksParts roots a ns (setKnown name kind span) [] := by
  cases name with
  | none => exact pure_logs fun _ _ _ => ⟨Passes.nil, trivial⟩
  | some id =>
    refine tours_of_rooted ((setName_logs (known.knows id rfl) kind span false).imp ?_)
    rintro _ later refs grows _ ⟨r, rfl, _, _, name, _⟩
    refine ⟨fun q member => ?_, trivial⟩
    obtain rfl := List.mem_singleton.mp member
    exact name ▸ (known id rfl).extends forest grows.extends

theorem declareFunctions_tours (admits : a.Admits roots) (ss : List Stmt) :
    WalksParts roots a ns (declareFunctions ss) [] := by
  induction ss generalizing ns with
  | nil => exact (pure_walks ()).tours
  | cons s ss ih =>
    obtain ⟨span, doc, form⟩ := s
    cases form with
    | funcDecl name nameSpan f =>
      refine WalksParts.skip (Logs.markingType _ ?_) fun _ _ _ => ih
      exact Tours.skip (declare_tours admits name .func nameSpan) fun _ _ _ _ _ =>
        (pure_walks ()).tours
    | _ => exact ih

end

/-! ### Parts -/

section
variable {roots : String → Prop} {a : Surroundings} {ns : Namespace}

/-- The walk of a node is one with the references of some sites. -/
theorem exists_sites (n : Node) (a : Surroundings) (ns : Namespace) (use : Use)
    (known : ns.Knows use.target) : ∃ sites, Walks a ns (n.walk use) sites := by
  cases n with
  | expr e => exact ⟨_, Expr.walk_sites e a ns use known⟩
  | pattern p => exact ⟨_, Pattern.walk_sites p a ns⟩
  | func ownName f => exact ⟨_, Func.walk_sites f a ns ownName⟩
  | staticBlock ss =>
    exact ⟨_, Logs.inFunction (afterFunctions_walks ss (Stmt.walkAll_sites ss _ ns))⟩
  | stmts ss => exact ⟨_, afterFunctions_walks ss (Stmt.walkAll_sites ss a ns)⟩
  | stmt s => exact ⟨_, Stmt.walk_sites s a ns⟩
  | block b => exact ⟨_, Block.walk_sites b a ns⟩
  | branches bs => exact ⟨_, Logs.inBlock (Branch.walkAll_sites bs _ ns)⟩
  | handler h => exact ⟨_, Handler.walkOption_sites (some h) a ns⟩

/-- The walk of a node passes through the node. -/
theorem part_tours (admits : a.Admits roots) (forest : ns.Forest) (n : Node) {use : Use}
    (known : ns.KnowsIn roots use.target) : WalksParts roots a ns (n.walk use) [(a, n)] := by
  obtain ⟨sites, walks⟩ := exists_sites n a ns use known.knows
  intro r here before
  obtain ⟨there, grows, refs, added, _⟩ := walks r here before
  have leg : Leg roots ns (out (n.walk use) r).2.space (a, n) r (out (n.walk use) r).2 :=
    ⟨before, ⟨use, known.extends forest before.extends, here, rfl⟩, Grows.refl _⟩
  refine ⟨there, grows, refs, added, ⟨fun x member _ => ?_, fun q member => .inr ?_⟩, trivial⟩
  · obtain rfl := List.mem_singleton.mp member
    exact ⟨_, _, leg⟩
  · exact ⟨(a, n), List.mem_singleton_self _, admits, _, _, refs, leg, added, member⟩

/-- The walk of a node that gives its value to no name. -/
theorem read_tours (admits : a.Admits roots) (forest : ns.Forest) (n : Node)
    (type : RefType) : WalksParts roots a ns (n.walk (.read type)) [(a, n)] :=
  part_tours admits forest n ns.knowsIn_none

end
end Record
end NameAudit
