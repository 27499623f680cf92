import NameAudit.Proofs.Recording

/-!
The walk adds the references of the sites of a tree, whatever is done with the values of its
expressions. The proof goes along the walk: each part of a tree is walked once, a part that is an
occurrence is never walked into, and everything else between two parts adds no reference. Both
functions unfold to their cases by definition, so the cases go without their equations.
-/
namespace NameAudit

open Namespace (Grows Extends Spelled)
open Record

/-- A member access is used as the chain that it is, or its owner is walked. -/
theorem Expr.walk_member (span : Span) (isOptional : Bool) (owner : Expr) (name : String) (use : Use) :
    (Expr.member span isOptional owner name).walk use =
      match (Expr.member span isOptional owner name).chain? with
      | some chain => useName chain span use
      | none => owner.walk (.read .get) := rfl

/-- What is assigned with `=` is a global path, or the target is walked. -/
theorem Expr.walk_assign (span : Span) (target value : Expr) (use : Use) :
    (Expr.assign span .plain target value).walk use = (do
      match ← globalPath? target with
      | some path =>
        let name ← assignPath path target.span (valueKind value false)
        prototypeLiteral path value
        value.walk (.value name)
      | none =>
        target.walk .write
        value.walk (.value none)) := rfl

/-- A statement that is a path is one bare path, and any other expression is walked. -/
theorem StmtForm.walk_expr (e : Expr) (hasDoc : Bool) : (StmtForm.expr e).walk hasDoc =
    match e.path? with
    | some path => barePath path e.span hasDoc
    | none => e.walk (.read .get) := rfl

mutual

/-- The walk of an expression adds the references of its sites. -/
theorem Expr.walk_sites (e : Expr) (a : Surroundings) (ns : Namespace) (use : Use)
    (known : ns.Knows use.target) : Walks a ns (e.walk use) (e.sites a) := by
  have read : ∀ type, ns.Knows (Use.read type).target := fun _ => ns.knows_none
  cases e with
  | ident span name =>
    exact useName_walks ⟨name, []⟩ span known
  | member span isOptional owner name =>
    rw [Expr.walk_member, Expr.sites_member, Expr.chain?_eq]
    cases (Expr.member span isOptional owner name).occurrence? with
    | some o => exact useName_walks o span known
    | none => exact Expr.walk_sites owner a ns (.read .get) (read _)
  | index span isOptional owner key =>
    have plain := Expr.walk_sites owner a ns (.read .get) (read _)
    have after := Expr.walk_sites key a ns (.read .get) (read _)
    cases use with
    | write =>
      refine Yields.bind (useChainOr_yields .get plain) fun hidden later grows _ => ?_
      exact (hideMembers_walks hidden).skip fun _ last further _ _ =>
        after.mono (grows.trans further)
    | read type => exact plain.seq after
    | value target => exact plain.seq after
  | call span isOptional callee args =>
    -- Whether the call is an inheritance changes how the arguments are used, not what is walked.
    refine Yields.bind
      (useChainOr_yields .call (Expr.walk_sites callee a ns (.read .get) (read _)))
      fun _ later _ _ => ?_
    refine Logs.argumentUse fun type after silent => ?_
    exact Yields.bind_silent (Arg.walkAll_sites args a later (.read type) later.knows_none)
      fun _ last _ _ => silent last
  | construct span callee args =>
    refine Walks.seq (useChainOr_yields .construct ?_).walks ?_
    · exact Expr.walk_sites callee a ns (.read .get) (read _)
    · exact Arg.walkAll_sites args a ns (.read .aliasingGet) (read _)
  | unary span op operand =>
    have walks : ∀ type, Walks a ns (operand.walk (.read type)) (operand.sites a) :=
      fun type => Expr.walk_sites operand a ns (.read type) (read type)
    cases op <;> exact walks _
  | step span op operand =>
    exact Expr.walk_sites operand a ns (.read .get) (read _)
  | yield span isDelegate argument =>
    exact Expr.walkOption_sites argument a ns (.read .aliasingGet) (read _)
  | assign span op target value =>
    cases op with
    | plain =>
      refine Logs.keep (globalPath?_keeps target) fun r here => ?_
      cases found : (out (globalPath? target) r).1 with
      | some path =>
        -- The assigned path is recorded as a whole, and nothing of the target is walked.
        obtain ⟨o, occurrence, plain, rfl, isGlobal⟩ := globalPath?_eq_some here found
        show Walks a ns _ (target.sites a ++ value.sites a)
        rw [Expr.sites_of_occurrence a occurrence]
        refine Yields.bind (assignPath_yields isGlobal plain target.span (valueKind value false))
          fun name later _ assigned => ?_
        exact (prototypeLiteral_walks o.path value).skip fun _ last further _ _ =>
          Expr.walk_sites value a last (.value name) fun id member =>
            further.extends.has id (assigned id member).has
      | none =>
        exact (Expr.walk_sites target a ns .write ns.knows_none).seq
          (Expr.walk_sites value a ns (.value none) ns.knows_none)
    | _ =>
      exact (Expr.walk_sites target a ns (.read .get) (read _)).seq
        (Expr.walk_sites value a ns (.read .aliasingGet) (read _))
  | binary span op left right =>
    show Walks a ns
      (if op.isSelection = true then do
        left.walk (.read use.type)
        right.walk (.read use.type)
      else do
        left.walk (.read .get)
        right.walk (.read .get))
      (left.sites a ++ right.sites a)
    split
    · exact (Expr.walk_sites left a ns (.read use.type) (read _)).seq
        (Expr.walk_sites right a ns (.read use.type) (read _))
    · exact (Expr.walk_sites left a ns (.read .get) (read _)).seq
        (Expr.walk_sites right a ns (.read .get) (read _))
  | comma span left right =>
    exact (Expr.walk_sites left a ns (.read .get) (read _)).seq
      (Expr.walk_sites right a ns (.read use.type) (read _))
  | conditional span test consequent alternate =>
    exact (Expr.walk_sites test a ns (.read .get) (read _)).seq <|
      (Expr.walk_sites consequent a ns (.read use.type) (read _)).seq
        (Expr.walk_sites alternate a ns (.read use.type) (read _))
  | func span name f =>
    exact Func.walk_sites f a ns name
  | classExpr span name base members =>
    exact (Expr.walkBase_sites base a ns use.target).seq
      (Logs.inBlock (ClassMember.walkAll_sites members _ ns use.target known))
  | array span elements =>
    exact Element.walkAll_sites elements a ns
  | object span members =>
    exact Member.walkAll_sites members a ns use.target known
  | template span tag substitutions =>
    cases tag with
    | none =>
      exact Expr.walkAll_sites substitutions a ns (.read .get) (read _)
    | some tag =>
      refine Walks.seq (useChainOr_yields .call ?_).walks ?_
      · exact Expr.walk_sites tag a ns (.read .get) (read _)
      · exact Expr.walkAll_sites substitutions a ns (.read .aliasingGet) (read _)
  | destructuring d =>
    exact Destructuring.walk_sites d a ns
  | literal span value => exact pure_walks ()
  | thisRef span => exact pure_walks ()
  | superRef span => exact pure_walks ()
  | newTarget span => exact pure_walks ()

theorem Expr.walkAll_sites (es : List Expr) (a : Surroundings) (ns : Namespace) (use : Use)
    (known : ns.Knows use.target) : Walks a ns (Expr.walkAll use es) (Expr.sitesOf a es) := by
  cases es with
  | nil => exact pure_walks ()
  | cons e es =>
    exact (Expr.walk_sites e a ns use known).seq (Expr.walkAll_sites es a ns use known)

theorem Expr.walkOption_sites (e : Option Expr) (a : Surroundings) (ns : Namespace) (use : Use)
    (known : ns.Knows use.target) : Walks a ns (Expr.walkOption use e) (Expr.sitesOfOption a e) := by
  cases e with
  | none => exact pure_walks ()
  | some e =>
    exact Expr.walk_sites e a ns use known

theorem Expr.walkBase_sites (base : Option Expr) (a : Surroundings) (ns : Namespace)
    (target : Option NameId) : Walks a ns (Expr.walkBase target base) (Expr.sitesOfOption a base) := by
  cases base with
  | none => exact pure_walks ()
  | some e =>
    exact Yields.bind_silent
      (useChainOr_yields .get (Expr.walk_sites e a ns (.read .get) ns.knows_none))
      fun parent later _ known => extend_walks target known

theorem Key.walk_sites (key : Key) (a : Surroundings) (ns : Namespace) (owner : Option NameId) :
    Walks a ns (key.walk owner) (key.sites a) := by
  cases key with
  | direct name => exact pure_walks ()
  | hidden name => exact pure_walks ()
  | computed e =>
    exact (hideMembers_walks owner).skip fun _ later _ _ _ =>
      Expr.walk_sites e a later (.read .get) later.knows_none

theorem Element.walkAll_sites (es : List Element) (a : Surroundings) (ns : Namespace) :
    Walks a ns (Element.walkAll es) (Element.sitesOf a es) := by
  cases es with
  | nil => exact pure_walks ()
  | cons e es =>
    have later := Element.walkAll_sites es a ns
    cases e with
    | hole =>
      exact later
    | item e =>
      exact (Expr.walk_sites e a ns (.read .aliasingGet) ns.knows_none).seq later
    | spread e =>
      exact (Expr.walk_sites e a ns (.read .aliasingGet) ns.knows_none).seq later

theorem Arg.walkAll_sites (args : List Arg) (a : Surroundings) (ns : Namespace) (use : Use)
    (known : ns.Knows use.target) : Walks a ns (Arg.walkAll use args) (Arg.sitesOf a args) := by
  cases args with
  | nil => exact pure_walks ()
  | cons arg args =>
    obtain ⟨span, isSpread, value⟩ := arg
    exact (Expr.walk_sites value a ns use known).seq (Arg.walkAll_sites args a ns use known)

theorem Member.walkAll_sites (ms : List Member) (a : Surroundings) (ns : Namespace)
    (target : Option NameId) (known : ns.Knows target) :
    Walks a ns (Member.walkAll target ms) (Member.sitesOf a ms) := by
  cases ms with
  | nil => exact pure_walks ()
  | cons m ms =>
    have others : ∀ later, Grows ns later → Walks a later (Member.walkAll target ms)
        (Member.sitesOf a ms) :=
      fun later grows => Member.walkAll_sites ms a later target (known.extends grows.extends)
    cases m with
    | property span key value =>
      refine Yields.bind (Key.walk_sites key a ns target) fun _ later grows _ => ?_
      refine (childOf_yields (known.extends grows.extends) key.directName?).skip
        fun name last further _ isMember => ?_
      exact (PropertyValue.walk_sites value a last name span key.directName? isMember).seq
        (others last (grows.trans further))
    | shorthand span name nameSpan =>
      refine (childOf_yields known (some name)).skip fun key later grows _ isMember => ?_
      refine Yields.bind (setKnown_walks isMember .other nameSpan) fun _ set further _ => ?_
      refine Yields.bind (useVariable_yields name .aliasingGet nameSpan)
        fun source read onwards isRoot => ?_
      have stays := isMember.extends (further.trans onwards).extends
      refine (abbreviate_walks (fun s member => (isRoot s member).1) ?_).skip
        fun _ last afterwards _ _ => ?_
      · -- The key has a parent, which no variable has.
        rintro k isKey s isSource rfl
        exact (stays s isKey).2.1 (isRoot s isSource).2
      · exact others last (grows.trans (further.trans (onwards.trans afterwards)))
    | spread span e =>
      refine (hideMembers_walks target).skip fun _ later grows _ _ => ?_
      exact (Expr.walk_sites e a later (.read .aliasingGet) later.knows_none).seq
        (others later grows)

theorem PropertyValue.walk_sites (value : PropertyValue) (a : Surroundings) (ns : Namespace)
    (name : Option NameId) (span : Span) (key : Option String) (isMember : ns.IsMember name key) :
    Walks a ns (value.walk name span) (Site.ofKey a span key ++ value.sites a) := by
  cases value with
  | getter f =>
    exact (setKnown_walks isMember .getter span).seq (Func.walk_sites f a ns none)
  | setter f =>
    exact (setKnown_walks isMember .setter span).seq (Func.walk_sites f a ns none)
  | method f =>
    exact (setKnown_walks isMember .func span).seq (Func.walk_sites f a ns none)
  | value e =>
    cases e with
    | none =>
      show Walks a ns (setKnown name .other span) (Site.ofKey a span key ++ [])
      rw [List.append_nil]
      exact setKnown_walks isMember .other span
    | some e =>
      exact (setKnown_walks isMember (valueKind e false) span).seq
        (Expr.walk_sites e a ns (.value name) isMember.knows)

theorem PropertyValue.walkInstance_sites (value : PropertyValue) (a : Surroundings)
    (ns : Namespace) : Walks a ns value.walkInstance (value.instanceSites a) := by
  cases value with
  | getter f =>
    exact Func.walk_sites f a ns none
  | setter f =>
    exact Func.walk_sites f a ns none
  | method f =>
    exact Func.walk_sites f a ns none
  | value e =>
    cases e with
    | none => exact pure_walks ()
    | some e =>
      exact Logs.inFunction (Expr.walk_sites e _ ns (.read .aliasingGet) ns.knows_none)

theorem ClassMember.walkAll_sites (ms : List ClassMember) (a : Surroundings) (ns : Namespace)
    (target : Option NameId) (known : ns.Knows target) :
    Walks a ns (ClassMember.walkAll target ms) (ClassMember.sitesOf a ms) := by
  cases ms with
  | nil => exact pure_walks ()
  | cons m ms =>
    have others : ∀ later, Grows ns later → Walks a later (ClassMember.walkAll target ms)
        (ClassMember.sitesOf a ms) :=
      fun later grows => ClassMember.walkAll_sites ms a later target (known.extends grows.extends)
    cases m with
    | property span isStatic key value =>
      cases isStatic with
      | true =>
        refine Yields.bind (Key.walk_sites key a ns target) fun _ later grows _ => ?_
        refine (childOf_yields (known.extends grows.extends) key.directName?).skip
          fun name last further _ isMember => ?_
        exact (PropertyValue.walk_sites value a last name span key.directName? isMember).seq
          (others last (grows.trans further))
      | false =>
        exact (Key.walk_sites key a ns none).seq <|
          (PropertyValue.walkInstance_sites value a ns).seq (others ns (Grows.refl ns))
    | staticBlock span body =>
      exact Walks.seq
        (Logs.inFunction (afterFunctions_walks body (Stmt.walkAll_sites body _ ns)))
        (others ns (Grows.refl ns))

theorem Func.walk_sites (f : Func) (a : Surroundings) (ns : Namespace) (ownName : Option String) :
    Walks a ns (f.walk ownName) (f.sites a ownName) := by
  obtain ⟨span, isArrow, isAsync, isGenerator, params, body⟩ := f
  exact Logs.inFunction <| Logs.withoutMark <|
    (Param.walkAll_sites params _ ns).seq (Body.walk_sites body _ ns)

theorem Body.walk_sites (body : Body) (a : Surroundings) (ns : Namespace) :
    Walks a ns body.walk (body.sites a) := by
  cases body with
  | block body =>
    exact afterFunctions_walks body (Stmt.walkAll_sites body a ns)
  | expr e =>
    exact Expr.walk_sites e a ns (.read .aliasingGet) ns.knows_none

theorem Param.walkAll_sites (ps : List Param) (a : Surroundings) (ns : Namespace) :
    Walks a ns (Param.walkAll ps) (Param.sitesOf a ps) := by
  cases ps with
  | nil => exact pure_walks ()
  | cons p ps =>
    obtain ⟨span, isRest, p, default⟩ := p
    exact (Pattern.walk_sites p a ns).seq <|
      (Expr.walkOption_sites default a ns (.read .aliasingGet) ns.knows_none).seq
        (Param.walkAll_sites ps a ns)

theorem Pattern.walk_sites (p : Pattern) (a : Surroundings) (ns : Namespace) :
    Walks a ns p.walk (p.sites a) := by
  cases p with
  | ident span name =>
    exact (declare_occurs name .other span).walks.discard
  | destructuring d =>
    exact Destructuring.walk_sites d a ns
  | target e =>
    exact Expr.walk_sites e a ns .write ns.knows_none

theorem Pattern.walkOption_sites (p : Option Pattern) (a : Surroundings) (ns : Namespace) :
    Walks a ns (Pattern.walkOption p) (Pattern.sitesOfOption a p) := by
  cases p with
  | none => exact pure_walks ()
  | some p =>
    exact Pattern.walk_sites p a ns

theorem Destructuring.walk_sites (d : Destructuring) (a : Surroundings) (ns : Namespace) :
    Walks a ns d.walk (d.sites a) := by
  cases d with
  | array span elements rest =>
    exact (PatternElement.walkAll_sites elements a ns).seq (Pattern.walkOption_sites rest a ns)
  | object span properties rest =>
    exact (PatternProperty.walkAll_sites properties a ns).seq (Pattern.walkOption_sites rest a ns)

theorem PatternElement.walkAll_sites (es : List PatternElement) (a : Surroundings)
    (ns : Namespace) : Walks a ns (PatternElement.walkAll es) (PatternElement.sitesOf a es) := by
  cases es with
  | nil => exact pure_walks ()
  | cons e es =>
    have later := PatternElement.walkAll_sites es a ns
    cases e with
    | hole =>
      exact later
    | item target default =>
      exact (Pattern.walk_sites target a ns).seq <|
        (Expr.walkOption_sites default a ns (.read .aliasingGet) ns.knows_none).seq later

theorem PatternProperty.walkAll_sites (ps : List PatternProperty) (a : Surroundings)
    (ns : Namespace) : Walks a ns (PatternProperty.walkAll ps) (PatternProperty.sitesOf a ps) := by
  cases ps with
  | nil => exact pure_walks ()
  | cons p ps =>
    obtain ⟨span, key, target, default⟩ := p
    exact (Key.walk_sites key a ns none).seq <| (Pattern.walk_sites target a ns).seq <|
      (Expr.walkOption_sites default a ns (.read .aliasingGet) ns.knows_none).seq
        (PatternProperty.walkAll_sites ps a ns)

theorem Stmt.walk_sites (s : Stmt) (a : Surroundings) (ns : Namespace) :
    Walks a ns s.walk (s.sites a) := by
  obtain ⟨span, doc, form⟩ := s
  exact Logs.underDoc doc (Logs.markingType _ (StmtForm.walk_sites form a ns doc.isSome))

theorem Stmt.walkAll_sites (ss : List Stmt) (a : Surroundings) (ns : Namespace) :
    Walks a ns (Stmt.walkAll ss) (Stmt.sitesOf a ss) := by
  cases ss with
  | nil => exact pure_walks ()
  | cons s ss =>
    exact (Stmt.walk_sites s a ns).seq (Stmt.walkAll_sites ss a ns)

theorem Stmt.walkOption_sites (s : Option Stmt) (a : Surroundings) (ns : Namespace) :
    Walks a ns (Stmt.walkOption s) (Stmt.sitesOfOption a s) := by
  cases s with
  | none => exact pure_walks ()
  | some s =>
    exact Stmt.walk_sites s a ns

theorem StmtForm.walk_sites (form : StmtForm) (a : Surroundings) (ns : Namespace)
    (hasDoc : Bool) : Walks a ns (form.walk hasDoc) (form.sites a) := by
  have read : ∀ {type}, ns.Knows (Use.read type).target := ns.knows_none
  cases form with
  | block body =>
    exact Logs.inBlock (afterFunctions_walks body (Stmt.walkAll_sites body _ ns))
  | classDecl name nameSpan base members =>
    exact Yields.bind (declare_defines name .classDef nameSpan) fun target later _ known =>
      (Expr.walkBase_sites base a later target).seq
        (Logs.inBlock (ClassMember.walkAll_sites members _ later target known))
  | doLoop body condition =>
    exact (Stmt.walk_sites body a ns).seq (Expr.walk_sites condition a ns (.read .get) read)
  | expr e =>
    show Walks a ns _ (e.sites a)
    rw [StmtForm.walk_expr]
    split
    next path found =>
      obtain ⟨o, occurrence, plain, rfl⟩ := Expr.path?_eq_some found
      rw [Expr.sites_of_occurrence a occurrence]
      exact barePath_walks plain e.span hasDoc
    next => exact Expr.walk_sites e a ns (.read .get) read
  | forEach isOf isAwait head subject body =>
    exact Logs.inBlock <| (Expr.walk_sites subject _ ns (.read .get) read).seq <|
      (ForHead.walk_sites head _ ns).seq (Stmt.walk_sites body _ ns)
  | forLoop init condition update body =>
    exact Logs.inBlock <| (ForInit.walk_sites init _ ns).seq <|
      (Expr.walkOption_sites condition _ ns (.read .get) read).seq <|
        (Stmt.walk_sites body _ ns).seq (Expr.walkOption_sites update _ ns (.read .get) read)
  | funcDecl name nameSpan f =>
    exact Func.walk_sites f a ns none
  | conditional test consequent alternate =>
    exact (Expr.walk_sites test a ns (.read .get) read).seq <|
      (Stmt.walk_sites consequent a ns).seq (Stmt.walkOption_sites alternate a ns)
  | labelled name body =>
    exact Stmt.walk_sites body a ns
  | returns value =>
    exact Expr.walkOption_sites value a ns (.read .aliasingGet) read
  | switch subject branches =>
    exact (Expr.walk_sites subject a ns (.read .get) read).seq
      (Logs.inBlock (Branch.walkAll_sites branches _ ns))
  | throws value =>
    exact Expr.walk_sites value a ns (.read .aliasingGet) read
  | attempt body handler finalizer =>
    exact (Block.walk_sites body a ns).seq <|
      (Handler.walkOption_sites handler a ns).seq (Block.walkOption_sites finalizer a ns)
  | vars mode declarators =>
    exact Declarator.walkAll_sites declarators a ns
  | whileLoop condition body =>
    exact (Expr.walk_sites condition a ns (.read .get) read).seq (Stmt.walk_sites body a ns)
  | «scoped» owner body =>
    exact (Expr.walk_sites owner a ns (.read .get) read).seq (Stmt.walk_sites body a ns)
  | breakTo label => exact pure_walks ()
  | continueTo label => exact pure_walks ()
  | debugger => exact pure_walks ()
  | empty => exact pure_walks ()

theorem Declarator.walkAll_sites (ds : List Declarator) (a : Surroundings) (ns : Namespace) :
    Walks a ns (Declarator.walkAll ds) (Declarator.sitesOf a ds) := by
  cases ds with
  | nil => exact pure_walks ()
  | cons d ds =>
    obtain ⟨p, value⟩ := d
    have others : ∀ later, Walks a later (Declarator.walkAll ds) (Declarator.sitesOf a ds) :=
      fun later => Declarator.walkAll_sites ds a later
    cases p with
    | ident span name =>
      cases value with
      | some value =>
        exact Yields.bind (declare_occurs name (valueKind value true) span)
          fun target later _ known =>
            (Expr.walk_sites value a later (.value target) known).seq (others later)
      | none =>
        exact (declare_occurs name .var span).walks.seq (others ns)
    | destructuring d =>
      exact (Pattern.walk_sites (.destructuring d) a ns).seq <|
        (Expr.walkOption_sites value a ns (.read .aliasingGet) ns.knows_none).seq (others ns)
    | target e =>
      exact (Pattern.walk_sites (.target e) a ns).seq <|
        (Expr.walkOption_sites value a ns (.read .aliasingGet) ns.knows_none).seq (others ns)

theorem ForInit.walk_sites (init : ForInit) (a : Surroundings) (ns : Namespace) :
    Walks a ns init.walk (init.sites a) := by
  cases init with
  | nothing => exact pure_walks ()
  | expr e =>
    exact Expr.walk_sites e a ns (.read .get) ns.knows_none
  | vars span mode declarators =>
    exact Declarator.walkAll_sites declarators a ns

theorem ForHead.walk_sites (head : ForHead) (a : Surroundings) (ns : Namespace) :
    Walks a ns head.walk (head.sites a) := by
  cases head with
  | target e =>
    exact Expr.walk_sites e a ns .write ns.knows_none
  | declares mode p =>
    exact Pattern.walk_sites p a ns

theorem Branch.walkAll_sites (bs : List Branch) (a : Surroundings) (ns : Namespace) :
    Walks a ns (Branch.walkAll bs) (Branch.sitesOf a bs) := by
  cases bs with
  | nil => exact pure_walks ()
  | cons b bs =>
    obtain ⟨span, test, body⟩ := b
    exact (Expr.walkOption_sites test a ns (.read .get) ns.knows_none).seq <|
      (afterFunctions_walks body (Stmt.walkAll_sites body a ns)).seq (Branch.walkAll_sites bs a ns)

theorem Handler.walkOption_sites (handler : Option Handler) (a : Surroundings) (ns : Namespace) :
    Walks a ns (Handler.walkOption handler) (Handler.sitesOfOption a handler) := by
  cases handler with
  | none => exact pure_walks ()
  | some handler =>
    obtain ⟨span, param, body⟩ := handler
    exact Logs.inBlock <| (Pattern.walkOption_sites param _ ns).seq
      (afterFunctions_walks body (Stmt.walkAll_sites body _ ns))

theorem Block.walk_sites (block : Block) (a : Surroundings) (ns : Namespace) :
    Walks a ns block.walk (block.sites a) := by
  obtain ⟨span, body⟩ := block
  exact Logs.inBlock (afterFunctions_walks body (Stmt.walkAll_sites body _ ns))

theorem Block.walkOption_sites (block : Option Block) (a : Surroundings) (ns : Namespace) :
    Walks a ns (Block.walkOption block) (Block.sitesOfOption a block) := by
  cases block with
  | none => exact pure_walks ()
  | some block =>
    exact Block.walk_sites block a ns

end

end NameAudit
