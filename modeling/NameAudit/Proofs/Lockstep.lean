import NameAudit.Proofs.Comments
import NameAudit.Proofs.Veils

/-!
The walk of a tree and that of the same tree with other comments, in step. If the other comments look
as they do through a veil, then so does the whole walk. A node follows because its parts do, so all
nodes do by induction from parts to wholes, and a program does by its files.
-/
namespace NameAudit

open Record

/-- Other comments look like the first through a veil. -/
structure Veil.Fits (v : Veil) (f : DocComment → DocComment) : Prop where
  declaresType : ∀ d, (f d).declaresType = d.declaresType
  suppresses : ∀ d, Record.suppresses (some (f d)) = (!v.suppressions && Record.suppresses (some d))

theorem Veil.Fits.suppresses_map {v : Veil} {f : DocComment → DocComment} (fits : v.Fits f)
    (doc : Option DocComment) :
    Record.suppresses (doc.map f) = (!v.suppressions && Record.suppresses doc) := by
  cases doc with
  | none => exact (Bool.and_false _).symm
  | some d => exact fits.suppresses d

/-- Without other comments, a veil may hide files. -/
theorem Veil.fits_id (files : Bool) : Veil.Fits ⟨files, false⟩ id := ⟨fun _ => rfl, fun _ => rfl⟩

/-- Changes the comments in a node. -/
def Node.mapDocs (f : DocComment → DocComment) : Node → Node
  | .expr e => .expr (e.mapDocs f)
  | .pattern p => .pattern (p.mapDocs f)
  | .func ownName g => .func ownName (g.mapDocs f)
  | .staticBlock ss => .staticBlock (Stmt.mapDocsAll f ss)
  | .stmts ss => .stmts (Stmt.mapDocsAll f ss)
  | .stmt s => .stmt (s.mapDocs f)
  | .block b => .block (b.mapDocs f)
  | .branches bs => .branches (Branch.mapDocsAll f bs)
  | .handler (.mk span param body) =>
    .handler (.mk span (Pattern.mapDocsOption f param) (Stmt.mapDocsAll f body))

/-! ### Two steps in step -/

namespace Record

/-- At some surroundings, a step goes on as `Goes` says, and another does the same behind a veil. -/
def Follows {α : Type} (v : Veil) (Y : Surroundings → Record Unit → Prop) (a : Surroundings)
    (m m' : Record α) : Prop :=
  ∀ r : Recording, r.around = a → (out m r).2.around = a ∧ Goes Y r (out m r).2 ∧
    out m' (v.recording r) = ((out m r).1, v.recording (out m r).2)

section
variable {α β : Type} {v : Veil} {f : DocComment → DocComment}
variable {Y : Surroundings → Record Unit → Prop}
variable {a : Surroundings} {m m' : Record α} {g g' : α → Record β} {step step' : Record Unit}

theorem Plain.follows (plain : Plain m) : Follows v Y a m m :=
  fun r here => ⟨(plain.around r).trans here, plain.goes Y r, plain.veiled v r⟩

theorem Follows.bind (first : Follows v Y a m m') (next : ∀ x, Follows v Y a (g x) (g' x)) :
    Follows v Y a (m >>= g) (m' >>= g') := by
  intro r here
  obtain ⟨there, goes, veiled⟩ := first r here
  obtain ⟨last, further, alsoVeiled⟩ := next _ _ there
  refine ⟨last, goes.trans further, ?_⟩
  rw [out_bind, veiled]
  exact alsoVeiled

theorem Follows.seq {n n' : Record β} (first : Follows v Y a m m') (second : Follows v Y a n n') :
    Follows v Y a (m >>= fun _ => n) (m' >>= fun _ => n') :=
  first.bind fun _ => second

theorem Follows.inScope {scope : Scope}
    (inner : Follows v Y ⟨a.slot, a.file, scope :: a.scopes⟩ step step') :
    Follows v Y a (inScope scope step) (inScope scope step') := by
  intro r here
  have inside : { r with scopes := scope :: r.scopes }.around =
      ⟨a.slot, a.file, scope :: a.scopes⟩ := by
    rw [← here]
    rfl
  obtain ⟨there, goes, veiled⟩ := inner _ inside
  refine ⟨congrArg (fun b : Surroundings => { b with scopes := b.scopes.tail }) there,
    ⟨goes.suppressed, goes.keeps, goes.exempt, goes.within⟩, ?_⟩
  show out (step' >>= fun _ => modify fun r => { r with scopes := r.scopes.tail })
    (v.recording { r with scopes := scope :: r.scopes }) = _
  rw [out_bind, veiled]
  rfl

theorem Follows.inBlock {names : List String} (inner : Follows v Y (a.inBlock names) step step') :
    Follows v Y a (inBlock names step) (inBlock names step') :=
  inner.inScope

theorem Follows.inFunction {names : List String}
    (inner : Follows v Y (a.inFunction names) step step') :
    Follows v Y a (inFunction names step) (inFunction names step') :=
  inner.inScope

theorem Follows.markingType (mark : Bool) (inner : Follows v Y a step step') :
    Follows v Y a (markingType mark step) (markingType mark step') :=
  (mark_plain mark).follows.seq (inner.seq (mark_plain false).follows)

theorem Follows.withoutMark (inner : Follows v Y a step step') :
    Follows v Y a (withoutMark step) (withoutMark step') := by
  intro r here
  exact (mark_plain false).follows.seq (inner.seq (mark_plain r.declaresType).follows) r here

/-- Under a comment that suppresses, references are exempt. -/
theorem Follows.exempt_underDoc (inner : Follows v Y a step step') {doc : Option DocComment}
    (suppresses : suppresses doc = true) {r : Recording} (here : r.around = a) {i : RefId}
    (new : ¬ r.space.HasRef i) (has : (out (underDoc doc step) r).2.space.HasRef i) :
    ((out (underDoc doc step) r).2.space.ref i).exemption ≠ .none := by
  rw [underDoc, suppresses] at has ⊢
  exact (inner { r with suppressed := r.suppressed + 1 } here).2.1.exempt i new has (Nat.succ_pos _)

/-- What is recorded under a comment that suppresses is recorded by a step of the given kind. -/
theorem Follows.underDoc (fits : v.Fits f) (doc : Option DocComment)
    (inner : Follows v Y a step step') (covered : suppresses doc = true → Y a (underDoc doc step)) :
    Follows v Y a (underDoc doc step) (underDoc (doc.map f) step') := by
  cases suppresses : Record.suppresses doc with
  | false =>
    have other : Record.suppresses (doc.map f) = false := by
      rw [fits.suppresses_map, suppresses, Bool.and_false]
    rw [Record.underDoc, Record.underDoc, suppresses, other]
    exact inner
  | true =>
    intro r here
    let deeper : Recording := { r with suppressed := r.suppressed + 1 }
    obtain ⟨there, goes, veiled⟩ := inner deeper here
    let s := (out step deeper).2
    have result : out (Record.underDoc doc step) r =
        ((), { s with suppressed := s.suppressed - 1 }) := by
      rw [Record.underDoc, suppresses]
      rfl
    have back : s.suppressed - 1 = r.suppressed := by
      rw [goes.suppressed]
      rfl
    rw [result]
    refine ⟨there, ⟨back, goes.keeps, fun i new has _ => goes.exempt i new has (Nat.succ_pos _),
      fun i new has _ => .inr ⟨a, _, covered suppresses, r, here, new, ?_⟩⟩, ?_⟩
    · rw [result]
      exact ⟨has, List.prefix_refl _⟩
    · rw [back, Record.underDoc, fits.suppresses_map, suppresses, Bool.and_true]
      -- The other comment suppresses too, unless that is hidden; then it shows nothing of the counter.
      cases hidden : v.suppressions with
      | true =>
        have same : v.recording r = v.recording deeper := by
          simp [Veil.recording, Veil.suppressed, hidden, deeper]
        show out step' (v.recording r) = _
        rw [same, veiled]
        simp [Veil.recording, Veil.suppressed, hidden, s]
      | false =>
        have same : { v.recording r with suppressed := (v.recording r).suppressed + 1 } =
            v.recording deeper := by
          simp [Veil.recording, Veil.suppressed, hidden, deeper]
        show out (step' >>= fun _ => modify fun r => { r with suppressed := r.suppressed - 1 })
          { v.recording r with suppressed := (v.recording r).suppressed + 1 } = _
        rw [same, out_bind, veiled]
        show ((), { v.recording s with suppressed := (v.recording s).suppressed - 1 }) = _
        simp [Veil.recording, Veil.suppressed, hidden, back]

end
end Record

/-! ### Parts -/

/-- The walks of some parts follow, however the parts are used. -/
def PartsFollow (v : Veil) (f : DocComment → DocComment) (Y : Surroundings → Record Unit → Prop)
    (parts : List Located) : Prop :=
  ∀ x ∈ parts, ∀ use, Follows v Y x.1 (x.2.walk use) ((x.2.mapDocs f).walk use)

section
variable {v : Veil} {f : DocComment → DocComment} {Y : Surroundings → Record Unit → Prop}
variable {a : Surroundings} {x : Located} {parts others : List Located}

theorem PartsFollow.head (given : PartsFollow v f Y (x :: parts)) (use : Use) :
    Follows v Y x.1 (x.2.walk use) ((x.2.mapDocs f).walk use) :=
  given x List.mem_cons_self use

theorem PartsFollow.first (given : PartsFollow v f Y (x :: parts)) : PartsFollow v f Y [x] :=
  fun _ member => given _ (List.mem_singleton.mp member ▸ List.mem_cons_self)

theorem PartsFollow.tail (given : PartsFollow v f Y (x :: parts)) : PartsFollow v f Y parts :=
  fun y member => given y (List.mem_cons_of_mem x member)

theorem PartsFollow.left (given : PartsFollow v f Y (parts ++ others)) : PartsFollow v f Y parts :=
  fun y member => given y (List.mem_append_left others member)

theorem PartsFollow.right (given : PartsFollow v f Y (parts ++ others)) :
    PartsFollow v f Y others :=
  fun y member => given y (List.mem_append_right parts member)

theorem nothing_follows : Follows v Y a (pure ()) (pure ()) := (Plain.pure ()).follows

/-! ### Expressions -/

theorem Expr.walkOption_follows {e : Option Expr}
    (given : PartsFollow v f Y (Expr.optionalParts a e)) (use : Use) :
    Follows v Y a (Expr.walkOption use e) (Expr.walkOption use (Expr.mapDocsOption f e)) := by
  cases e with
  | none => exact nothing_follows
  | some e => exact given.head use

/-- An expression that is a chain is recorded as one with other comments, too. -/
theorem useChainOr_follows {e : Expr} (given : PartsFollow v f Y [(a, .expr e)]) (type : RefType) :
    Follows v Y a (useChainOr e type (e.walk (.read .get)))
      (useChainOr (e.mapDocs f) type ((e.mapDocs f).walk (.read .get))) := by
  unfold useChainOr
  rw [Expr.chain?_mapDocs, Expr.span_mapDocs]
  cases e.chain? with
  | none => exact (given.head (.read .get)).seq (Plain.pure none).follows
  | some chain => exact (useChain_plain chain type e.span).follows

theorem Key.walk_follows {key : Key} (given : PartsFollow v f Y (key.parts a))
    (owner : Option NameId) : Follows v Y a (key.walk owner) ((key.mapDocs f).walk owner) := by
  cases key with
  | direct name => exact nothing_follows
  | hidden name => exact nothing_follows
  | computed e => exact (hideMembers_plain owner).follows.seq (given.head (.read .get))

theorem Expr.walkAll_follows {es : List Expr}
    (given : PartsFollow v f Y (es.map fun e => (a, .expr e))) (use : Use) :
    Follows v Y a (Expr.walkAll use es) (Expr.walkAll use (Expr.mapDocsAll f es)) := by
  induction es with
  | nil => exact nothing_follows
  | cons e es ih => exact (given.head use).seq (ih given.tail)

theorem Element.walkAll_follows {es : List Element}
    (given : PartsFollow v f Y (es.flatMap (·.parts a))) :
    Follows v Y a (Element.walkAll es) (Element.walkAll (Element.mapDocsAll f es)) := by
  induction es with
  | nil => exact nothing_follows
  | cons e es ih =>
    cases e with
    | hole => exact ih given
    | item e => exact (given.head (.read .aliasingGet)).seq (ih given.tail)
    | spread e => exact (given.head (.read .aliasingGet)).seq (ih given.tail)

theorem Arg.walkAll_follows {args : List Arg}
    (given : PartsFollow v f Y (args.flatMap (·.parts a))) (use : Use) :
    Follows v Y a (Arg.walkAll use args) (Arg.walkAll use (Arg.mapDocsAll f args)) := by
  induction args with
  | nil => exact nothing_follows
  | cons arg args ih =>
    obtain ⟨span, isSpread, value⟩ := arg
    exact (given.head use).seq (ih given.tail)

theorem Expr.walkBase_follows {base : Option Expr}
    (given : PartsFollow v f Y (Expr.optionalParts a base)) (target : Option NameId) :
    Follows v Y a (Expr.walkBase target base) (Expr.walkBase target (Expr.mapDocsOption f base)) := by
  cases base with
  | none => exact nothing_follows
  | some e =>
    exact (useChainOr_follows given .get).bind fun parent => (extend_plain target parent).follows

/-! ### Members -/

theorem PropertyValue.walk_follows {value : PropertyValue}
    (given : PartsFollow v f Y (value.parts a)) (name : Option NameId) (span : Span) :
    Follows v Y a (value.walk name span) ((value.mapDocs f).walk name span) := by
  have sets : ∀ kind, Follows v Y a (setKnown name kind span) (setKnown name kind span) :=
    fun kind => (setKnown_plain name kind span).follows
  cases value with
  | getter g => exact (sets .getter).seq (given.head (.read .get))
  | setter g => exact (sets .setter).seq (given.head (.read .get))
  | method g => exact (sets .func).seq (given.head (.read .get))
  | value e =>
    cases e with
    | none => exact sets .other
    | some e =>
      show Follows v Y a _ (setKnown name (valueKind (e.mapDocs f) false) span >>= _)
      rw [valueKind_mapDocs]
      exact (sets (valueKind e false)).seq (given.head (.value name))

theorem PropertyValue.walkInstance_follows {value : PropertyValue}
    (given : PartsFollow v f Y (value.instanceParts a)) :
    Follows v Y a value.walkInstance (value.mapDocs f).walkInstance := by
  cases value with
  | getter g => exact given.head (.read .get)
  | setter g => exact given.head (.read .get)
  | method g => exact given.head (.read .get)
  | value e =>
    cases e with
    | none => exact nothing_follows
    | some e => exact (given.head (.read .aliasingGet)).inFunction

theorem Member.walkAll_follows {ms : List Member}
    (given : PartsFollow v f Y (ms.flatMap (·.parts a))) (target : Option NameId) :
    Follows v Y a (Member.walkAll target ms) (Member.walkAll target (Member.mapDocsAll f ms)) := by
  induction ms with
  | nil => exact nothing_follows
  | cons m ms ih =>
    have rest := ih given.right
    cases m with
    | property span key value =>
      show Follows v Y a _ ((key.mapDocs f).walk target >>= fun _ =>
        childOf target (key.mapDocs f).directName? >>= fun name =>
          (value.mapDocs f).walk name span >>= fun _ => Member.walkAll target (Member.mapDocsAll f ms))
      rw [Key.directName?_mapDocs]
      refine (Key.walk_follows given.left.left target).seq ?_
      exact (childOf_plain target key.directName?).follows.bind fun name =>
        (PropertyValue.walk_follows given.left.right name span).seq rest
    | shorthand span name nameSpan =>
      refine (childOf_plain target (some name)).follows.bind fun key => ?_
      refine (setKnown_plain key .other nameSpan).follows.seq ?_
      exact (useChain_plain _ .aliasingGet nameSpan).follows.bind fun source =>
        (abbreviate_plain key source).follows.seq rest
    | spread span e =>
      exact (hideMembers_plain target).follows.seq ((given.head (.read .aliasingGet)).seq rest)

theorem ClassMember.walkAll_follows {ms : List ClassMember}
    (given : PartsFollow v f Y (ms.flatMap (·.parts a))) (target : Option NameId) :
    Follows v Y a (ClassMember.walkAll target ms)
      (ClassMember.walkAll target (ClassMember.mapDocsAll f ms)) := by
  induction ms with
  | nil => exact nothing_follows
  | cons m ms ih =>
    have rest := ih given.right
    cases m with
    | property span isStatic key value =>
      cases isStatic with
      | true =>
        show Follows v Y a _ ((key.mapDocs f).walk target >>= fun _ =>
          childOf target (key.mapDocs f).directName? >>= fun name =>
            (value.mapDocs f).walk name span >>= fun _ =>
              ClassMember.walkAll target (ClassMember.mapDocsAll f ms))
        rw [Key.directName?_mapDocs]
        refine (Key.walk_follows given.left.left target).seq ?_
        exact (childOf_plain target key.directName?).follows.bind fun name =>
          (PropertyValue.walk_follows given.left.right name span).seq rest
      | false =>
        exact (Key.walk_follows given.left.left none).seq
          ((PropertyValue.walkInstance_follows given.left.right).seq rest)
    | staticBlock span ss => exact (given.left.head (.read .get)).seq rest

/-! ### Patterns -/

theorem Pattern.walkOption_follows {p : Option Pattern}
    (given : PartsFollow v f Y (Pattern.optionalParts a p)) :
    Follows v Y a (Pattern.walkOption p) (Pattern.walkOption (Pattern.mapDocsOption f p)) := by
  cases p with
  | none => exact nothing_follows
  | some p => exact given.head (.read .get)

/-- A pattern with its default. -/
theorem Pattern.walkDefault_follows {p : Pattern} {default : Option Expr}
    (given : PartsFollow v f Y ((a, .pattern p) :: Expr.optionalParts a default)) :
    Follows v Y a (p.walk >>= fun _ => Expr.walkOption (.read .aliasingGet) default)
      ((p.mapDocs f).walk >>= fun _ =>
        Expr.walkOption (.read .aliasingGet) (Expr.mapDocsOption f default)) :=
  (given.head (.read .get)).seq (Expr.walkOption_follows given.tail (.read .aliasingGet))

theorem PatternElement.walkAll_follows {es : List PatternElement}
    (given : PartsFollow v f Y (es.flatMap (·.parts a))) :
    Follows v Y a (PatternElement.walkAll es)
      (PatternElement.walkAll (PatternElement.mapDocsAll f es)) := by
  induction es with
  | nil => exact nothing_follows
  | cons e es ih =>
    cases e with
    | hole => exact ih given
    | item target default => exact (Pattern.walkDefault_follows given.left).seq (ih given.right)

theorem PatternProperty.walkAll_follows {ps : List PatternProperty}
    (given : PartsFollow v f Y (ps.flatMap (·.parts a))) :
    Follows v Y a (PatternProperty.walkAll ps)
      (PatternProperty.walkAll (PatternProperty.mapDocsAll f ps)) := by
  induction ps with
  | nil => exact nothing_follows
  | cons p ps ih =>
    obtain ⟨span, key, target, default⟩ := p
    exact (Key.walk_follows given.left.left none).seq
      ((Pattern.walkDefault_follows given.left.right).seq (ih given.right))

theorem Destructuring.walk_follows {d : Destructuring} (given : PartsFollow v f Y (d.parts a)) :
    Follows v Y a d.walk (d.mapDocs f).walk := by
  cases d with
  | array span elements rest =>
    exact (PatternElement.walkAll_follows given.left).seq (Pattern.walkOption_follows given.right)
  | object span properties rest =>
    exact (PatternProperty.walkAll_follows given.left).seq (Pattern.walkOption_follows given.right)

theorem Param.walkAll_follows {ps : List Param}
    (given : PartsFollow v f Y (ps.flatMap (·.parts a))) :
    Follows v Y a (Param.walkAll ps) (Param.walkAll (Param.mapDocsAll f ps)) := by
  induction ps with
  | nil => exact nothing_follows
  | cons p ps ih =>
    obtain ⟨span, isRest, p, default⟩ := p
    exact (Pattern.walkDefault_follows given.left).seq (ih given.right)

theorem Declarator.walkAll_follows {ds : List Declarator}
    (given : PartsFollow v f Y (ds.flatMap (·.parts a))) :
    Follows v Y a (Declarator.walkAll ds) (Declarator.walkAll (Declarator.mapDocsAll f ds)) := by
  induction ds with
  | nil => exact nothing_follows
  | cons d ds ih =>
    obtain ⟨p, value⟩ := d
    have rest := ih given.right
    cases p with
    | ident span name =>
      cases value with
      | some value =>
        show Follows v Y a _ (declare name (valueKind (value.mapDocs f) true) span >>= _)
        rw [valueKind_mapDocs]
        exact (declare_plain name (valueKind value true) span).follows.bind fun target =>
          (given.left.tail.head (.value target)).seq rest
      | none => exact (declare_plain name .var span).follows.seq rest
    | destructuring d => exact (Pattern.walkDefault_follows given.left).seq rest
    | target e => exact (Pattern.walkDefault_follows given.left).seq rest

/-! ### Nodes -/

/-- How arguments are used does not depend on comments, and what is noted after them is plain. -/
theorem Follows.argumentUse {β : Type} {callee : Expr} {args : List Arg}
    {g g' : Use × Record Unit → Record β}
    (next : ∀ use after, Plain after → Follows v Y a (g (use, after)) (g' (use, after))) :
    Follows v Y a (argumentUse callee args >>= g)
      (argumentUse (callee.mapDocs f) (Arg.mapDocsAll f args) >>= g') := by
  unfold Record.argumentUse
  rw [inheritance?_mapDocs, bind_assoc, bind_assoc]
  refine (inheritance?_plain callee args).follows.bind fun found => ?_
  cases found with
  | none => exact next (.read .aliasingGet) (pure ()) (.pure ())
  | some both => exact next (.read .get) _ (inherit_plain both.1 both.2)

theorem Expr.walk_follows {e : Expr} (given : PartsFollow v f Y (e.parts a)) (use : Use) :
    Follows v Y a (e.walk use) ((e.mapDocs f).walk use) := by
  cases e with
  | ident span name => exact (useName_plain _ span use).follows
  | literal | thisRef | superRef | newTarget => exact nothing_follows
  | member span isOptional owner name =>
    have same := (Expr.member span isOptional owner name).chain?_mapDocs f
    rw [Expr.mapDocs] at same ⊢
    rw [Expr.walk_member, Expr.walk_member, same]
    cases (Expr.member span isOptional owner name).chain? with
    | some chain => exact (useName_plain chain span use).follows
    | none => exact given.head (.read .get)
  | index span isOptional owner key =>
    cases use with
    | write =>
      refine (useChainOr_follows given.first .get).bind fun hidden => ?_
      exact (hideMembers_plain hidden).follows.seq (given.tail.head (.read .get))
    | read type => exact (given.head (.read .get)).seq (given.tail.head (.read .get))
    | value target => exact (given.head (.read .get)).seq (given.tail.head (.read .get))
  | call span isOptional callee args =>
    refine (useChainOr_follows given.first .call).seq (Follows.argumentUse fun use after plain => ?_)
    exact (Arg.walkAll_follows given.tail use).seq plain.follows
  | construct span callee args =>
    exact (useChainOr_follows given.first .construct).seq (Arg.walkAll_follows given.tail _)
  | unary span op operand => cases op <;> exact given.head _
  | step span op operand => exact given.head (.read .get)
  | yield span isDelegate argument => exact Expr.walkOption_follows given (.read .aliasingGet)
  | assign span op target value =>
    cases op with
    | plain =>
      rw [Expr.mapDocs, Expr.walk_assign, Expr.walk_assign, globalPath?_mapDocs, Expr.span_mapDocs,
        valueKind_mapDocs]
      refine (globalPath?_plain target).follows.bind fun path => ?_
      cases path with
      | some path =>
        dsimp only
        rw [prototypeLiteral_mapDocs]
        refine (assignPath_plain path target.span (valueKind value false)).follows.bind fun name => ?_
        exact (prototypeLiteral_plain path value).follows.seq (given.tail.head (.value name))
      | none => exact (given.head .write).seq (given.tail.head (.value none))
    | _ => exact (given.head (.read .get)).seq (given.tail.head (.read .aliasingGet))
  | binary span op left right =>
    show Follows v Y a
      (if op.isSelection = true then do
        left.walk (.read use.type)
        right.walk (.read use.type)
      else do
        left.walk (.read .get)
        right.walk (.read .get))
      (if op.isSelection = true then do
        (left.mapDocs f).walk (.read use.type)
        (right.mapDocs f).walk (.read use.type)
      else do
        (left.mapDocs f).walk (.read .get)
        (right.mapDocs f).walk (.read .get))
    split
    · exact (given.head (.read use.type)).seq (given.tail.head (.read use.type))
    · exact (given.head (.read .get)).seq (given.tail.head (.read .get))
  | comma span left right =>
    exact (given.head (.read .get)).seq (given.tail.head (.read use.type))
  | conditional span test consequent alternate =>
    exact (given.head (.read .get)).seq <|
      (given.tail.head (.read use.type)).seq (given.tail.tail.head (.read use.type))
  | func span name g => exact given.head (.read .get)
  | classExpr span name base members =>
    exact (Expr.walkBase_follows given.left use.target).seq
      (ClassMember.walkAll_follows given.right use.target).inBlock
  | array span elements => exact Element.walkAll_follows given
  | object span members => exact Member.walkAll_follows given use.target
  | template span tag substitutions =>
    cases tag with
    | none => exact Expr.walkAll_follows given (.read .get)
    | some tag =>
      exact (useChainOr_follows given.left .call).seq
        (Expr.walkAll_follows given.right (.read .aliasingGet))
  | destructuring d => exact Destructuring.walk_follows given

theorem Pattern.walk_follows {p : Pattern} (given : PartsFollow v f Y (p.parts a)) :
    Follows v Y a p.walk (p.mapDocs f).walk := by
  cases p with
  | ident span name => exact (declare_plain name .other span).discard.follows
  | destructuring d => exact Destructuring.walk_follows given
  | target e => exact given.head .write

theorem Body.walk_follows {body : Body} (given : PartsFollow v f Y (body.parts a)) :
    Follows v Y a body.walk (body.mapDocs f).walk := by
  cases body with
  | block ss => exact given.head (.read .get)
  | expr e => exact given.head (.read .aliasingGet)

theorem Branch.walkAll_follows {bs : List Branch}
    (given : PartsFollow v f Y (bs.flatMap (·.parts a))) :
    Follows v Y a (Branch.walkAll bs) (Branch.walkAll (Branch.mapDocsAll f bs)) := by
  induction bs with
  | nil => exact nothing_follows
  | cons b bs ih =>
    obtain ⟨span, test, ss⟩ := b
    exact (Expr.walkOption_follows given.left.left (.read .get)).seq
      ((given.left.right.head (.read .get)).seq (ih given.right))

theorem ForInit.walk_follows {init : ForInit} (given : PartsFollow v f Y (init.parts a)) :
    Follows v Y a init.walk (init.mapDocs f).walk := by
  cases init with
  | nothing => exact nothing_follows
  | expr e => exact given.head (.read .get)
  | vars span mode ds => exact Declarator.walkAll_follows given

theorem ForHead.walk_follows {head : ForHead} (given : PartsFollow v f Y (head.parts a)) :
    Follows v Y a head.walk (head.mapDocs f).walk := by
  cases head with
  | target e => exact given.head .write
  | declares mode p => exact given.head (.read .get)

theorem Stmt.walkAll_follows {ss : List Stmt}
    (given : PartsFollow v f Y (ss.map fun s => (a, .stmt s))) :
    Follows v Y a (Stmt.walkAll ss) (Stmt.walkAll (Stmt.mapDocsAll f ss)) := by
  induction ss with
  | nil => exact nothing_follows
  | cons s ss ih => exact (given.head (.read .get)).seq (ih given.tail)

theorem StmtForm.walk_follows {form : StmtForm}
    (given : PartsFollow v f Y (form.parts (form.inside a))) (hasDoc : Bool) :
    Follows v Y a (form.walk hasDoc) ((form.mapDocs f).walk hasDoc) := by
  cases form with
  | breakTo | continueTo | debugger | empty => exact nothing_follows
  | block ss =>
    show Follows v Y a _ (inBlock (Stmt.lexicalNames (Stmt.mapDocsAll f ss)) _)
    rw [Stmt.lexicalNames_mapDocsAll]
    exact (given.head (.read .get)).inBlock
  | classDecl name nameSpan base members =>
    refine (declare_plain name .classDef nameSpan).follows.bind fun target => ?_
    exact (Expr.walkBase_follows given.left target).seq
      (ClassMember.walkAll_follows given.right target).inBlock
  | doLoop body condition =>
    exact (given.head (.read .get)).seq (given.tail.head (.read .get))
  | expr e =>
    rw [StmtForm.mapDocs, StmtForm.walk_expr, StmtForm.walk_expr, Expr.path?_mapDocs,
      Expr.span_mapDocs]
    cases e.path? with
    | some path => exact (barePath_plain path e.span hasDoc).follows
    | none => exact given.head (.read .get)
  | forEach isOf isAwait head subject body =>
    show Follows v Y a _ (inBlock (head.mapDocs f).blockNames _)
    rw [ForHead.blockNames_mapDocs]
    exact Follows.inBlock <| (given.head (.read .get)).seq <|
      (ForHead.walk_follows given.tail.left).seq (given.tail.right.head (.read .get))
  | forLoop init condition update body =>
    show Follows v Y a _ (inBlock (init.mapDocs f).blockNames _)
    rw [ForInit.blockNames_mapDocs]
    exact Follows.inBlock <| (ForInit.walk_follows given.left).seq <|
      (Expr.walkOption_follows given.right.left (.read .get)).seq <|
        (given.right.right.head (.read .get)).seq
          (Expr.walkOption_follows given.right.right.tail (.read .get))
  | funcDecl name nameSpan g => exact given.head (.read .get)
  | conditional test consequent alternate =>
    refine (given.head (.read .get)).seq ((given.tail.head (.read .get)).seq ?_)
    cases alternate with
    | none => exact nothing_follows
    | some s => exact given.tail.tail.head (.read .get)
  | labelled name body => exact given.head (.read .get)
  | returns value => exact Expr.walkOption_follows given (.read .aliasingGet)
  | switch subject branches => exact (given.head (.read .get)).seq (given.tail.head (.read .get))
  | throws value => exact given.head (.read .aliasingGet)
  | attempt body handler finalizer =>
    refine (given.head (.read .get)).seq (Follows.seq ?_ ?_)
    · cases handler with
      | none => exact nothing_follows
      | some h =>
        obtain ⟨span, param, ss⟩ := h
        exact given.tail.left.head (.read .get)
    · cases finalizer with
      | none => exact nothing_follows
      | some b => exact given.tail.right.head (.read .get)
  | vars mode ds => exact Declarator.walkAll_follows given
  | whileLoop condition body =>
    exact (given.head (.read .get)).seq (given.tail.head (.read .get))
  | «scoped» owner body => exact (given.head (.read .get)).seq (given.tail.head (.read .get))

/-- A comment of a statement suppresses warnings. -/
def Node.isSuppressed : Node → Bool
  | .stmt (.mk _ doc _) => Record.suppresses doc
  | _ => false

/-- A node follows if its parts do, and if its walk is a step by which references become suppressed. -/
theorem Node.walk_follows (fits : v.Fits f) {n : Node} (given : PartsFollow v f Y (n.parts a))
    (use : Use) (covered : n.isSuppressed = true → Y a (n.walk use)) :
    Follows v Y a (n.walk use) ((n.mapDocs f).walk use) := by
  cases n with
  | expr e => exact Expr.walk_follows given use
  | pattern p => exact Pattern.walk_follows given
  | func ownName g =>
    obtain ⟨span, isArrow, isAsync, isGenerator, params, body⟩ := g
    show Follows v Y a _ (inFunction (Param.namesOf (Param.mapDocsAll f params) ++
      (body.mapDocs f).declaredNames ++ ownName.toList) _)
    rw [Param.namesOf_mapDocsAll, Body.declaredNames_mapDocs]
    exact Follows.inFunction <| Follows.withoutMark <|
      (Param.walkAll_follows given.left).seq (Body.walk_follows given.right)
  | staticBlock ss =>
    show Follows v Y a _ (inFunction (Stmt.declaredNamesOf (Stmt.mapDocsAll f ss)) _)
    rw [Stmt.declaredNamesOf_mapDocsAll]
    exact (given.head (.read .get)).inFunction
  | stmts ss =>
    show Follows v Y a _ (declareFunctions (Stmt.mapDocsAll f ss) >>= _)
    rw [declareFunctions_mapDocsAll f fits.declaresType]
    exact (declareFunctions_plain ss).follows.seq (Stmt.walkAll_follows given)
  | stmt s =>
    obtain ⟨span, doc, form⟩ := s
    show Follows v Y a _ (underDoc (doc.map f)
      (markingType (declaresType (doc.map f)) ((form.mapDocs f).walk (doc.map f).isSome)))
    rw [declaresType_map f fits.declaresType, Option.isSome_map]
    exact Follows.underDoc fits doc
      ((StmtForm.walk_follows given doc.isSome).markingType (declaresType doc)) covered
  | block b =>
    obtain ⟨span, ss⟩ := b
    show Follows v Y a _ (inBlock (Stmt.lexicalNames (Stmt.mapDocsAll f ss)) _)
    rw [Stmt.lexicalNames_mapDocsAll]
    exact (given.head (.read .get)).inBlock
  | branches bs =>
    show Follows v Y a _ (inBlock (Branch.lexicalNames (Branch.mapDocsAll f bs)) _)
    rw [Branch.lexicalNames_mapDocsAll]
    exact (Branch.walkAll_follows given).inBlock
  | handler h =>
    obtain ⟨span, param, ss⟩ := h
    show Follows v Y a _ (inBlock (Pattern.namesOfRest (Pattern.mapDocsOption f param) ++
      Stmt.lexicalNames (Stmt.mapDocsAll f ss)) _)
    rw [Pattern.namesOfRest_mapDocsOption, Stmt.lexicalNames_mapDocsAll]
    exact Follows.inBlock <|
      (Pattern.walkOption_follows given.left).seq (given.right.head (.read .get))

/-- All nodes follow; references become suppressed in statements below them whose comments suppress. -/
theorem Located.walk_follows (fits : v.Fits f) (x : Located)
    (covered : ∀ y, Relation.ReflTransGen Holds x y → y.2.isSuppressed = true →
      ∀ use, Y y.1 (y.2.walk use)) (use : Use) :
    Follows v Y x.1 (x.2.walk use) ((x.2.mapDocs f).walk use) := by
  induction x using Located.induction generalizing use with
  | step x ih =>
    refine x.2.walk_follows fits (fun y holds use => ?_) use fun suppressed =>
      covered x .refl suppressed use
    exact ih y holds (fun z reached => covered z (.head holds reached)) use

end
end NameAudit
