import NameAudit.Proofs.Passage

/-!
The walk of a node passes through its direct parts, one after the other (`Node.walk_tours`). A part
that is a name may be recorded without being walked. What lies between two parts adds references to
names that are global around the node, or to members of the name that takes the value of the node.
-/
namespace NameAudit

open Namespace (Grows Extends)
open Record

section
variable {roots : String → Prop} {a : Surroundings} {ns : Namespace}

/-! ### Expressions -/

theorem Expr.walkOption_tours (admits : a.Admits roots) (forest : ns.Forest) (e : Option Expr)
    (type : RefType) :
    WalksParts roots a ns (Expr.walkOption (.read type) e) (Expr.optionalParts a e) := by
  cases e with
  | none => exact (pure_walks ()).tours
  | some e => exact read_tours admits forest (.expr e) type

/-- An expression that is a chain is recorded as one, and any other is walked. -/
theorem useChainOr_tours (admits : a.Admits roots) (forest : ns.Forest) (e : Expr) (type : RefType) :
    Tours roots a ns (useChainOr e type (e.walk (.read .get))) [(a, .expr e)] fun x later =>
      later.KnowsIn roots x := by
  unfold useChainOr
  rw [Expr.chain?_eq]
  cases found : e.occurrence? with
  | none =>
    refine Logs.returns (read_tours admits forest (.expr e) .get) fun _ later _ _ _ ⟨passes, _⟩ => ?_
    exact ⟨passes, later.knowsIn_none⟩
  | some o =>
    refine (useChain_tours admits o type e.span .none).names fun x member => ?_
    obtain rfl := List.mem_singleton.mp member
    exact Option.isSome_iff_exists.mpr ⟨o, found⟩

theorem Key.walk_tours (admits : a.Admits roots) (key : Key) (owner : Option NameId) :
    WalksParts roots a ns (key.walk owner) (key.parts a) := by
  cases key with
  | direct name => exact (pure_walks ()).tours
  | hidden name => exact (pure_walks ()).tours
  | computed e =>
    exact WalksParts.skip (hideMembers_walks owner).tours fun _ _ forest =>
      read_tours admits forest (.expr e) .get

theorem Expr.walkAll_tours (admits : a.Admits roots) (forest : ns.Forest) (es : List Expr)
    (type : RefType) :
    WalksParts roots a ns (Expr.walkAll (.read type) es) (es.map fun e => (a, .expr e)) := by
  induction es generalizing ns with
  | nil => exact (pure_walks ()).tours
  | cons e es ih => exact (read_tours admits forest (.expr e) type).seq fun _ _ forest => ih forest

theorem Element.walkAll_tours (admits : a.Admits roots) (forest : ns.Forest) (es : List Element) :
    WalksParts roots a ns (Element.walkAll es) (es.flatMap (·.parts a)) := by
  induction es generalizing ns with
  | nil => exact (pure_walks ()).tours
  | cons e es ih =>
    cases e with
    | hole => exact ih forest
    | item e => exact (read_tours admits forest (.expr e) .aliasingGet).seq fun _ _ forest => ih forest
    | spread e => exact (read_tours admits forest (.expr e) .aliasingGet).seq fun _ _ forest => ih forest

theorem Arg.walkAll_tours (admits : a.Admits roots) (forest : ns.Forest) (args : List Arg)
    (type : RefType) :
    WalksParts roots a ns (Arg.walkAll (.read type) args) (args.flatMap (·.parts a)) := by
  induction args generalizing ns with
  | nil => exact (pure_walks ()).tours
  | cons arg args ih =>
    obtain ⟨span, isSpread, value⟩ := arg
    exact (read_tours admits forest (.expr value) type).seq fun _ _ forest => ih forest

theorem Expr.walkBase_tours (admits : a.Admits roots) (forest : ns.Forest) (target : Option NameId)
    (base : Option Expr) :
    WalksParts roots a ns (Expr.walkBase target base) (Expr.optionalParts a base) := by
  cases base with
  | none => exact (pure_walks ()).tours
  | some e =>
    exact Tours.bind_bare (useChainOr_tours admits forest e .get) fun _ _ _ _ known =>
      (extend_walks target known.knows).tours

/-! ### Members -/

theorem PropertyValue.walk_tours (admits : a.Admits roots) (forest : ns.Forest)
    {name : Option NameId} (known : ns.KnowsIn roots name) (span : Span) (value : PropertyValue) :
    WalksParts roots a ns (value.walk name span) (value.parts a) := by
  have sets : ∀ kind, WalksParts roots a ns (setKnown name kind span) [] := fun kind =>
    setKnown_tours forest known kind span
  cases value with
  | getter f =>
    exact (sets .getter).skip fun _ _ forest => read_tours admits forest (.func none f) .get
  | setter f =>
    exact (sets .setter).skip fun _ _ forest => read_tours admits forest (.func none f) .get
  | method f =>
    exact (sets .func).skip fun _ _ forest => read_tours admits forest (.func none f) .get
  | value e =>
    cases e with
    | none => exact sets .other
    | some e =>
      exact (sets (valueKind e false)).skip fun _ grows later =>
        part_tours admits later (.expr e) (known.extends forest grows.extends)

theorem PropertyValue.walkInstance_tours (admits : a.Admits roots) (forest : ns.Forest)
    (value : PropertyValue) :
    WalksParts roots a ns value.walkInstance (value.instanceParts a) := by
  cases value with
  | getter f => exact read_tours admits forest (.func none f) .get
  | setter f => exact read_tours admits forest (.func none f) .get
  | method f => exact read_tours admits forest (.func none f) .get
  | value e =>
    cases e with
    | none => exact (pure_walks ()).tours
    | some e =>
      exact Logs.inFunction (read_tours (admits.inFunction []) forest (.expr e) .aliasingGet)

theorem Member.walkAll_tours (admits : a.Admits roots) (forest : ns.Forest)
    {target : Option NameId} (known : ns.KnowsIn roots target) (ms : List Member) :
    WalksParts roots a ns (Member.walkAll target ms) (ms.flatMap (·.parts a)) := by
  induction ms generalizing ns with
  | nil => exact (pure_walks ()).tours
  | cons m ms ih =>
    have others : ∀ later, Grows ns later → later.Forest →
        WalksParts roots a later (Member.walkAll target ms) (ms.flatMap (·.parts a)) :=
      fun later grows stays => ih stays (known.extends forest grows.extends)
    cases m with
    | property span key value =>
      show WalksParts roots a ns _ (key.parts a ++ value.parts a ++ _)
      rw [List.append_assoc]
      refine (key.walk_tours admits target).seq fun later grows stays => ?_
      have stillKnown := known.extends forest grows.extends
      refine Tours.skip (childOf_tours stays stillKnown key.directName?)
        fun name last further lastForest child => ?_
      exact (value.walk_tours admits lastForest child.2 span).seq fun final onwards final' =>
        others final (grows.trans (further.trans onwards)) final'
    | shorthand span name nameSpan =>
      -- The key is set, and then the variable is read that it abbreviates.
      refine Tours.skip (childOf_tours forest known (some name))
        fun key later grows stays ⟨isMember, inKey⟩ => ?_
      refine Tours.skip (setKnown_tours stays inKey .other nameSpan) fun _ set further _ _ => ?_
      have isName : ∀ x ∈ [(a, Node.expr (.ident nameSpan name))], x.2.isName = true :=
        fun x member => List.mem_singleton.mp member ▸ rfl
      refine Tours.bind ((Yields.toursOccurrence admits
        (useVariable_yields name .aliasingGet nameSpan)).names isName)
        fun source read onwards _ isRoot => ?_
      have kept := isMember.extends (further.trans onwards).extends
      refine Tours.skip (abbreviate_walks (fun s member => (isRoot s member).1) ?_).tours
        fun _ last afterwards lastForest _ => ?_
      · rintro k isKey s isSource rfl
        exact (kept s isKey).2.1 (isRoot s isSource).2
      · exact others last (grows.trans (further.trans (onwards.trans afterwards))) lastForest
    | spread span e =>
      refine Tours.skip (hideMembers_walks target).tours fun _ later grows stays _ => ?_
      exact (read_tours admits stays (.expr e) .aliasingGet).seq fun last further lastForest =>
        others last (grows.trans further) lastForest

theorem ClassMember.walkAll_tours (admits : a.Admits roots) (forest : ns.Forest)
    {target : Option NameId} (known : ns.KnowsIn roots target) (ms : List ClassMember) :
    WalksParts roots a ns (ClassMember.walkAll target ms) (ms.flatMap (·.parts a)) := by
  induction ms generalizing ns with
  | nil => exact (pure_walks ()).tours
  | cons m ms ih =>
    have others : ∀ later, Grows ns later → later.Forest →
        WalksParts roots a later (ClassMember.walkAll target ms) (ms.flatMap (·.parts a)) :=
      fun later grows stays => ih stays (known.extends forest grows.extends)
    cases m with
    | property span isStatic key value =>
      cases isStatic with
      | true =>
        show WalksParts roots a ns _ (key.parts a ++ value.parts a ++ _)
        rw [List.append_assoc]
        refine (key.walk_tours admits target).seq fun later grows stays => ?_
        have stillKnown := known.extends forest grows.extends
        refine Tours.skip (childOf_tours stays stillKnown key.directName?)
          fun name last further lastForest child => ?_
        exact (value.walk_tours admits lastForest child.2 span).seq fun final onwards final' =>
          others final (grows.trans (further.trans onwards)) final'
      | false =>
        show WalksParts roots a ns _ (key.parts a ++ value.instanceParts a ++ _)
        rw [List.append_assoc]
        refine (key.walk_tours admits none).seq fun later grows stays => ?_
        exact (value.walkInstance_tours admits stays).seq fun last further lastForest =>
          others last (grows.trans further) lastForest
    | staticBlock span ss => exact (read_tours admits forest (.staticBlock ss) .get).seq others

/-! ### Patterns -/

theorem Pattern.walkOption_tours (admits : a.Admits roots) (forest : ns.Forest)
    (p : Option Pattern) : WalksParts roots a ns (Pattern.walkOption p) (Pattern.optionalParts a p) := by
  cases p with
  | none => exact (pure_walks ()).tours
  | some p => exact read_tours admits forest (.pattern p) .get

/-- A pattern with its default. -/
theorem Pattern.walkDefault_tours (admits : a.Admits roots) (forest : ns.Forest) (p : Pattern)
    (default : Option Expr) :
    WalksParts roots a ns (p.walk >>= fun _ => Expr.walkOption (.read .aliasingGet) default)
      ((a, .pattern p) :: Expr.optionalParts a default) :=
  (read_tours admits forest (.pattern p) .get).seq fun _ _ stays =>
    Expr.walkOption_tours admits stays default .aliasingGet

theorem PatternElement.walkAll_tours (admits : a.Admits roots) (forest : ns.Forest)
    (es : List PatternElement) :
    WalksParts roots a ns (PatternElement.walkAll es) (es.flatMap (·.parts a)) := by
  induction es generalizing ns with
  | nil => exact (pure_walks ()).tours
  | cons e es ih =>
    cases e with
    | hole => exact ih forest
    | item target default =>
      exact (target.walkDefault_tours admits forest default).seq fun _ _ stays => ih stays

theorem PatternProperty.walkAll_tours (admits : a.Admits roots) (forest : ns.Forest)
    (ps : List PatternProperty) :
    WalksParts roots a ns (PatternProperty.walkAll ps) (ps.flatMap (·.parts a)) := by
  induction ps generalizing ns with
  | nil => exact (pure_walks ()).tours
  | cons p ps ih =>
    obtain ⟨span, key, target, default⟩ := p
    show WalksParts roots a ns _
      (key.parts a ++ (a, .pattern target) :: Expr.optionalParts a default ++ _)
    rw [List.append_assoc]
    exact (key.walk_tours admits none).seq fun _ _ stays =>
      (target.walkDefault_tours admits stays default).seq fun _ _ last => ih last

theorem Destructuring.walk_tours (admits : a.Admits roots) (forest : ns.Forest)
    (d : Destructuring) : WalksParts roots a ns d.walk (d.parts a) := by
  cases d with
  | array span elements rest =>
    exact (PatternElement.walkAll_tours admits forest elements).seq fun _ _ stays =>
      Pattern.walkOption_tours admits stays rest
  | object span properties rest =>
    exact (PatternProperty.walkAll_tours admits forest properties).seq fun _ _ stays =>
      Pattern.walkOption_tours admits stays rest

theorem Param.walkAll_tours (admits : a.Admits roots) (forest : ns.Forest) (ps : List Param) :
    WalksParts roots a ns (Param.walkAll ps) (ps.flatMap (·.parts a)) := by
  induction ps generalizing ns with
  | nil => exact (pure_walks ()).tours
  | cons p ps ih =>
    obtain ⟨span, isRest, p, default⟩ := p
    exact (p.walkDefault_tours admits forest default).seq fun _ _ stays => ih stays

theorem Declarator.walkAll_tours (admits : a.Admits roots) (forest : ns.Forest)
    (ds : List Declarator) :
    WalksParts roots a ns (Declarator.walkAll ds) (ds.flatMap (·.parts a)) := by
  induction ds generalizing ns with
  | nil => exact (pure_walks ()).tours
  | cons d ds ih =>
    obtain ⟨p, value⟩ := d
    have isName : ∀ {span name}, ∀ x ∈ [(a, Node.pattern (.ident span name))], x.2.isName = true :=
      fun x member => List.mem_singleton.mp member ▸ rfl
    have others : ∀ later, Grows ns later → later.Forest →
        WalksParts roots a later (Declarator.walkAll ds) (ds.flatMap (·.parts a)) :=
      fun _ _ stays => ih stays
    cases p with
    | ident span name =>
      cases value with
      | some value =>
        show WalksParts roots a ns _ ([(a, .pattern (.ident span name))] ++ ([(a, .expr value)] ++ _))
        refine Tours.bind ((declare_tours admits name (valueKind value true) span).names isName)
          fun target later grows stays known => ?_
        have inTarget : later.KnowsIn roots (Use.value target).target := known
        exact (part_tours admits stays (.expr value) inTarget).seq fun last further =>
          others last (grows.trans further)
      | none =>
        exact Tours.bind ((declare_tours admits name .var span).names isName)
          fun _ later grows stays _ => others later grows stays
    | destructuring d =>
      exact ((Pattern.destructuring d).walkDefault_tours admits forest value).seq others
    | target e => exact ((Pattern.target e).walkDefault_tours admits forest value).seq others

/-! ### Nodes -/

theorem Expr.walk_tours (admits : a.Admits roots) (forest : ns.Forest) (e : Expr) {use : Use}
    (known : ns.KnowsIn roots use.target) : WalksParts roots a ns (e.walk use) (e.parts a) := by
  have reads : ∀ (e : Expr) (type : RefType) later, Grows ns later → later.Forest →
      WalksParts roots a later (e.walk (.read type)) [(a, .expr e)] :=
    fun e type _ _ stays => read_tours admits stays (.expr e) type
  have start := Grows.refl ns
  cases e with
  | ident span name => exact useName_tours admits ⟨name, []⟩ span known.knows
  | member span isOptional owner name =>
    show WalksParts roots a ns _ [(a, .expr owner)]
    rw [Expr.walk_member, Expr.chain?_eq]
    cases found : (Expr.member span isOptional owner name).occurrence? with
    | some o =>
      refine (useName_tours admits o span known.knows).names fun x member => ?_
      have holds : Holds (a, .expr (.member span isOptional owner name)) x := member
      exact holds.isName (Option.isSome_iff_exists.mpr ⟨o, found⟩)
    | none => exact reads owner .get ns start forest
  | index span isOptional owner key =>
    cases use with
    | write =>
      refine Tours.bind (useChainOr_tours admits forest owner .get)
        fun hidden later grows stays _ => ?_
      exact Tours.skip (hideMembers_walks hidden).tours fun _ last further lastForest _ =>
        reads key .get last (grows.trans further) lastForest
    | read type => exact (reads owner .get ns start forest).seq (reads key .get)
    | value target => exact (reads owner .get ns start forest).seq (reads key .get)
  | call span isOptional callee args =>
    refine Tours.bind (useChainOr_tours admits forest callee .call) fun _ later _ stays _ => ?_
    -- Whether the call is an inheritance changes how the arguments are used, not what is walked.
    refine Logs.argumentUse fun type after silent => ?_
    exact Tours.bind_bare (Arg.walkAll_tours admits stays args type) fun _ last _ _ _ =>
      (silent last).tours
  | construct span callee args =>
    exact Tours.bind (useChainOr_tours admits forest callee .construct) fun _ _ _ stays _ =>
      Arg.walkAll_tours admits stays args .aliasingGet
  | unary span op operand => cases op <;> exact reads operand _ ns start forest
  | step span op operand => exact reads operand .get ns start forest
  | yield span isDelegate argument =>
    exact Expr.walkOption_tours admits forest argument .aliasingGet
  | assign span op target value =>
    cases op with
    | plain =>
      refine Logs.keep (globalPath?_keeps target) fun r here => ?_
      cases found : (out (globalPath? target) r).1 with
      | some path =>
        -- The assigned path is recorded as a whole, so the target is a part that is a name.
        obtain ⟨o, occurrence, plain, rfl, isGlobal⟩ := globalPath?_eq_some here found
        have isName : ∀ x ∈ [(a, Node.expr target)], x.2.isName = true := fun x member =>
          List.mem_singleton.mp member ▸ Option.isSome_iff_exists.mpr ⟨o, occurrence⟩
        refine Tours.bind ((Yields.toursOccurrence admits
          (assignPath_yields isGlobal plain target.span (valueKind value false))).names isName)
          fun name later grows stays assigned => ?_
        refine Tours.skip (prototypeLiteral_walks o.path value).tours fun _ last further lastForest _ => ?_
        have known : last.KnowsIn roots (Use.value name).target := fun id member =>
          ⟨o.root, o.path.members, (assigned id member).extends stays further.extends,
            admits o.root isGlobal⟩
        exact part_tours admits lastForest (.expr value) known
      | none =>
        have write : ns.KnowsIn roots Use.write.target := ns.knowsIn_none
        refine (part_tours admits forest (.expr target) write).seq fun later _ stays => ?_
        have unnamed : later.KnowsIn roots (Use.value none).target := later.knowsIn_none
        exact part_tours admits stays (.expr value) unnamed
    | _ => exact (reads target .get ns start forest).seq (reads value .aliasingGet)
  | binary span op left right =>
    show WalksParts roots a ns
      (if op.isSelection = true then do
        left.walk (.read use.type)
        right.walk (.read use.type)
      else do
        left.walk (.read .get)
        right.walk (.read .get))
      [(a, .expr left), (a, .expr right)]
    split
    · exact (reads left use.type ns start forest).seq (reads right use.type)
    · exact (reads left .get ns start forest).seq (reads right .get)
  | comma span left right => exact (reads left .get ns start forest).seq (reads right use.type)
  | conditional span test consequent alternate =>
    refine (reads test .get ns start forest).seq fun later grows stays => ?_
    exact (reads consequent use.type later grows stays).seq fun last further =>
      reads alternate use.type last (grows.trans further)
  | func span name f => exact read_tours admits forest (.func name f) .get
  | classExpr span name base members =>
    refine (Expr.walkBase_tours admits forest use.target base).seq fun later grows stays => ?_
    exact Logs.inBlock (ClassMember.walkAll_tours (admits.inBlock name.toList) stays
      (known.extends forest grows.extends) members)
  | array span elements => exact Element.walkAll_tours admits forest elements
  | object span members => exact Member.walkAll_tours admits forest known members
  | template span tag substitutions =>
    cases tag with
    | none => exact Expr.walkAll_tours admits forest substitutions .get
    | some tag =>
      exact Tours.bind (useChainOr_tours admits forest tag .call) fun _ _ _ stays _ =>
        Expr.walkAll_tours admits stays substitutions .aliasingGet
  | destructuring d => exact d.walk_tours admits forest
  | literal span value => exact (pure_walks ()).tours
  | thisRef span => exact (pure_walks ()).tours
  | superRef span => exact (pure_walks ()).tours
  | newTarget span => exact (pure_walks ()).tours

theorem Pattern.walk_tours (admits : a.Admits roots) (forest : ns.Forest) (p : Pattern) :
    WalksParts roots a ns p.walk (p.parts a) := by
  cases p with
  | ident span name =>
    exact Tours.skip (declare_tours admits name .other span) fun _ _ _ _ _ => (pure_walks ()).tours
  | destructuring d => exact d.walk_tours admits forest
  | target e =>
    have write : ns.KnowsIn roots Use.write.target := ns.knowsIn_none
    exact part_tours admits forest (.expr e) write

theorem Body.walk_tours (admits : a.Admits roots) (forest : ns.Forest) (body : Body) :
    WalksParts roots a ns body.walk (body.parts a) := by
  cases body with
  | block ss => exact read_tours admits forest (.stmts ss) .get
  | expr e => exact read_tours admits forest (.expr e) .aliasingGet

theorem Branch.walkAll_tours (admits : a.Admits roots) (forest : ns.Forest) (bs : List Branch) :
    WalksParts roots a ns (Branch.walkAll bs) (bs.flatMap (·.parts a)) := by
  induction bs generalizing ns with
  | nil => exact (pure_walks ()).tours
  | cons b bs ih =>
    obtain ⟨span, test, ss⟩ := b
    show WalksParts roots a ns _ (Expr.optionalParts a test ++ [(a, .stmts ss)] ++ _)
    rw [List.append_assoc]
    refine (Expr.walkOption_tours admits forest test .get).seq fun _ _ stays => ?_
    exact (read_tours admits stays (.stmts ss) .get).seq fun _ _ last => ih last

theorem ForInit.walk_tours (admits : a.Admits roots) (forest : ns.Forest) (init : ForInit) :
    WalksParts roots a ns init.walk (init.parts a) := by
  cases init with
  | nothing => exact (pure_walks ()).tours
  | expr e => exact read_tours admits forest (.expr e) .get
  | vars span mode ds => exact Declarator.walkAll_tours admits forest ds

theorem ForHead.walk_tours (admits : a.Admits roots) (forest : ns.Forest) (head : ForHead) :
    WalksParts roots a ns head.walk (head.parts a) := by
  cases head with
  | target e =>
    have write : ns.KnowsIn roots Use.write.target := ns.knowsIn_none
    exact part_tours admits forest (.expr e) write
  | declares mode p => exact read_tours admits forest (.pattern p) .get

/-- A form that opens a scope for all its parts needs to know what is global inside only. -/
theorem StmtForm.walk_tours (form : StmtForm) (admits : (form.inside a).Admits roots)
    (forest : ns.Forest) (hasDoc : Bool) :
    WalksParts roots a ns (form.walk hasDoc) (form.parts (form.inside a)) := by
  have reads : a.Admits roots → ∀ (n : Node) later, Grows ns later → later.Forest →
      WalksParts roots a later (n.walk (.read .get)) [(a, n)] :=
    fun global n _ _ stays => read_tours global stays n .get
  have start := Grows.refl ns
  cases form with
  | block ss => exact Logs.inBlock (read_tours admits forest (.stmts ss) .get)
  | classDecl name nameSpan base members =>
    refine Tours.skip (declare_tours admits name .classDef nameSpan)
      fun target later _ stays known => ?_
    refine (Expr.walkBase_tours admits stays target base).seq fun last further lastForest => ?_
    exact Logs.inBlock (ClassMember.walkAll_tours (admits.inBlock []) lastForest
      (known.extends stays further.extends) members)
  | doLoop body condition => exact (reads admits (.stmt body) ns start forest).seq (reads admits (.expr condition))
  | expr e =>
    show WalksParts roots a ns _ [(a, .expr e)]
    rw [StmtForm.walk_expr]
    split
    next path found =>
      obtain ⟨o, occurrence, plain, rfl⟩ := Expr.path?_eq_some found
      refine (Yields.toursOccurrence admits (barePath_walks plain e.span hasDoc)).names ?_
      exact fun x member =>
        List.mem_singleton.mp member ▸ Option.isSome_iff_exists.mpr ⟨o, occurrence⟩
    next => exact reads admits (.expr e) ns start forest
  | forEach isOf isAwait head subject body =>
    refine Logs.inBlock ?_
    refine (read_tours admits forest (.expr subject) .get).seq fun _ _ stays => ?_
    exact (head.walk_tours admits stays).seq fun _ _ last => read_tours admits last (.stmt body) .get
  | forLoop init condition update body =>
    refine Logs.inBlock ?_
    refine (init.walk_tours admits forest).seq fun _ _ stays => ?_
    refine (Expr.walkOption_tours admits stays condition .get).seq fun _ _ later => ?_
    exact (read_tours admits later (.stmt body) .get).seq fun _ _ last =>
      Expr.walkOption_tours admits last update .get
  | funcDecl name nameSpan f => exact reads admits (.func none f) ns start forest
  | conditional test consequent alternate =>
    refine (reads admits (.expr test) ns start forest).seq fun _ grows stays => ?_
    refine (reads admits (.stmt consequent) _ grows stays).seq fun _ further last => ?_
    cases alternate with
    | none => exact (pure_walks ()).tours
    | some s => exact reads admits (.stmt s) _ (grows.trans further) last
  | labelled name body => exact reads admits (.stmt body) ns start forest
  | returns value => exact Expr.walkOption_tours admits forest value .aliasingGet
  | switch subject branches =>
    exact (reads admits (.expr subject) ns start forest).seq (reads admits (.branches branches))
  | throws value => exact read_tours admits forest (.expr value) .aliasingGet
  | attempt body handler finalizer =>
    have closes : ∀ later, Grows ns later → later.Forest →
        WalksParts roots a later (Block.walkOption finalizer)
          (finalizer.toList.map fun b => (a, .block b)) := by
      intro later grows stays
      cases finalizer with
      | none => exact (pure_walks ()).tours
      | some b => exact reads admits (.block b) later grows stays
    refine (reads admits (.block body) ns start forest).seq fun later grows stays => ?_
    refine WalksParts.seq ?_ fun last further => closes last (grows.trans further)
    cases handler with
    | none => exact (pure_walks ()).tours
    | some h => exact reads admits (.handler h) later grows stays
  | vars mode ds => exact Declarator.walkAll_tours admits forest ds
  | whileLoop condition body =>
    exact (reads admits (.expr condition) ns start forest).seq (reads admits (.stmt body))
  | «scoped» owner body => exact (reads admits (.expr owner) ns start forest).seq (reads admits (.stmt body))
  | breakTo label => exact (pure_walks ()).tours
  | continueTo label => exact (pure_walks ()).tours
  | debugger => exact (pure_walks ()).tours
  | empty => exact (pure_walks ()).tours

theorem Stmt.walkAll_tours (admits : a.Admits roots) (forest : ns.Forest) (ss : List Stmt) :
    WalksParts roots a ns (Stmt.walkAll ss) (ss.map fun s => (a, .stmt s)) := by
  induction ss generalizing ns with
  | nil => exact (pure_walks ()).tours
  | cons s ss ih => exact (read_tours admits forest (.stmt s) .get).seq fun _ _ stays => ih stays

/-- The walk of a node passes through the direct parts of the node. -/
theorem Node.walk_tours (n : Node) (admits : (n.inside a).Admits roots) (forest : ns.Forest)
    {use : Use} (known : ns.KnowsIn roots use.target) :
    WalksParts roots a ns (n.walk use) (n.parts a) := by
  cases n with
  | expr e => exact e.walk_tours admits forest known
  | pattern p => exact p.walk_tours admits forest
  | func ownName f =>
    obtain ⟨span, isArrow, isAsync, isGenerator, params, body⟩ := f
    refine Logs.inFunction (Logs.withoutMark ?_)
    exact (Param.walkAll_tours admits forest params).seq fun _ _ last => body.walk_tours admits last
  | staticBlock ss => exact Logs.inFunction (read_tours admits forest (.stmts ss) .get)
  | stmts ss =>
    exact (declareFunctions_tours admits ss).skip fun _ _ stays =>
      Stmt.walkAll_tours admits stays ss
  | stmt s =>
    obtain ⟨span, doc, form⟩ := s
    exact Logs.underDoc doc (Logs.markingType _ (form.walk_tours admits forest doc.isSome))
  | block b =>
    obtain ⟨span, ss⟩ := b
    exact Logs.inBlock (read_tours admits forest (.stmts ss) .get)
  | branches bs => exact Logs.inBlock (Branch.walkAll_tours admits forest bs)
  | handler h =>
    obtain ⟨span, param, ss⟩ := h
    refine Logs.inBlock ?_
    exact (Pattern.walkOption_tours admits forest param).seq fun _ _ stays =>
      read_tours admits stays (.stmts ss) .get

end
end NameAudit
