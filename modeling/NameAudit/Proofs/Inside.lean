import NameAudit.Proofs.Sites

/-!
Where the sites of a tree stand: in the file that the tree is part of, and inside all scopes that are
around the tree. A tree adds scopes for its parts and takes none away. The proof has the shape of the
enumeration of sites, one function of it after the other.
-/
namespace NameAudit

/-- The surroundings of a site. -/
def Site.around : Site → Surroundings
  | .occurrence a _ _ => a
  | .definition a _ _ => a

/-- The part of a text that a site is. -/
def Site.span : Site → Span
  | .occurrence _ span _ => span
  | .definition _ span _ => span

/-- Surroundings are those of a part of what stands in other surroundings. -/
structure Surroundings.Inside (inner outer : Surroundings) : Prop where
  slot : inner.slot = outer.slot
  file : inner.file = outer.file
  scopes : outer.scopes <:+ inner.scopes

theorem Surroundings.Inside.refl (a : Surroundings) : a.Inside a :=
  ⟨rfl, rfl, List.suffix_refl a.scopes⟩

/-- All sites of a list stand in some surroundings. -/
def AllInside (a : Surroundings) (sites : List Site) : Prop := ∀ s ∈ sites, s.around.Inside a

namespace AllInside

variable {a : Surroundings} {sites others : List Site}

theorem nil (a : Surroundings) : AllInside a [] := fun _ member => nomatch member

theorem cons {site : Site} (first : site.around = a) (rest : AllInside a sites) :
    AllInside a (site :: sites) := by
  intro s member
  rcases List.mem_cons.mp member with rfl | later
  · rw [first]
    exact .refl a
  · exact rest s later

theorem single {site : Site} (here : site.around = a) : AllInside a [site] := cons here (nil a)

theorem append (first : AllInside a sites) (second : AllInside a others) :
    AllInside a (sites ++ others) := by
  intro s member
  rcases List.mem_append.mp member with before | after
  · exact first s before
  · exact second s after

/-- Sites inside a further scope. -/
theorem within {scope : Scope} (inner : AllInside { a with scopes := scope :: a.scopes } sites) :
    AllInside a sites := by
  intro s member
  obtain ⟨slot, file, scopes⟩ := inner s member
  exact ⟨slot, file, (List.suffix_cons scope a.scopes).trans scopes⟩

theorem inBlock {names : List String} (inner : AllInside (a.inBlock names) sites) :
    AllInside a sites :=
  within inner

theorem inFunction {names : List String} (inner : AllInside (a.inFunction names) sites) :
    AllInside a sites :=
  within inner

end AllInside

theorem Stmt.functionSites_inside (a : Surroundings) (ss : List Stmt) :
    AllInside a (Stmt.functionSites a ss) := by
  induction ss with
  | nil => exact .nil a
  | cons s ss ih =>
    obtain ⟨span, doc, form⟩ := s
    cases form with
    | funcDecl name nameSpan f => exact .cons rfl ih
    | _ => exact ih

theorem Site.ofKey_inside (a : Surroundings) (span : Span) (key : Option String) :
    AllInside a (Site.ofKey a span key) := by
  cases key with
  | none => exact .nil a
  | some base => exact .single rfl

mutual

/-- The sites of an expression stand where the expression stands. -/
theorem Expr.sites_inside (a : Surroundings) (e : Expr) : AllInside a (e.sites a) := by
  cases e with
  | ident span name => exact .single rfl
  | member span isOptional owner name =>
    rw [Expr.sites_member]
    cases (Expr.member span isOptional owner name).occurrence? with
    | some o => exact .single rfl
    | none => exact owner.sites_inside a
  | index span isOptional owner key => exact (owner.sites_inside a).append (key.sites_inside a)
  | call span isOptional callee args =>
    exact (callee.sites_inside a).append (Arg.sitesOf_inside a args)
  | construct span callee args => exact (callee.sites_inside a).append (Arg.sitesOf_inside a args)
  | unary span op operand => exact operand.sites_inside a
  | step span op operand => exact operand.sites_inside a
  | yield span isDelegate argument => exact Expr.sitesOfOption_inside a argument
  | assign span op target value => exact (target.sites_inside a).append (value.sites_inside a)
  | binary span op left right => exact (left.sites_inside a).append (right.sites_inside a)
  | comma span left right => exact (left.sites_inside a).append (right.sites_inside a)
  | conditional span test consequent alternate =>
    exact (test.sites_inside a).append
      ((consequent.sites_inside a).append (alternate.sites_inside a))
  | func span name f => exact f.sites_inside a name
  | classExpr span name base members =>
    exact (Expr.sitesOfOption_inside a base).append (.inBlock (ClassMember.sitesOf_inside _ members))
  | array span elements => exact Element.sitesOf_inside a elements
  | object span members => exact Member.sitesOf_inside a members
  | template span tag substitutions =>
    exact (Expr.sitesOfOption_inside a tag).append (Expr.sitesOf_inside a substitutions)
  | destructuring d => exact d.sites_inside a
  | literal span value => exact .nil a
  | thisRef span => exact .nil a
  | superRef span => exact .nil a
  | newTarget span => exact .nil a

theorem Expr.sitesOf_inside (a : Surroundings) (es : List Expr) :
    AllInside a (Expr.sitesOf a es) := by
  cases es with
  | nil => exact .nil a
  | cons e es => exact (e.sites_inside a).append (Expr.sitesOf_inside a es)

theorem Expr.sitesOfOption_inside (a : Surroundings) (e : Option Expr) :
    AllInside a (Expr.sitesOfOption a e) := by
  cases e with
  | none => exact .nil a
  | some e => exact e.sites_inside a

theorem Key.sites_inside (a : Surroundings) (key : Key) : AllInside a (key.sites a) := by
  cases key with
  | direct name => exact .nil a
  | hidden name => exact .nil a
  | computed e => exact e.sites_inside a

theorem Element.sitesOf_inside (a : Surroundings) (es : List Element) :
    AllInside a (Element.sitesOf a es) := by
  cases es with
  | nil => exact .nil a
  | cons e es =>
    cases e with
    | hole => exact Element.sitesOf_inside a es
    | item e => exact (e.sites_inside a).append (Element.sitesOf_inside a es)
    | spread e => exact (e.sites_inside a).append (Element.sitesOf_inside a es)

theorem Arg.sitesOf_inside (a : Surroundings) (args : List Arg) :
    AllInside a (Arg.sitesOf a args) := by
  cases args with
  | nil => exact .nil a
  | cons arg args =>
    obtain ⟨span, isSpread, value⟩ := arg
    exact (value.sites_inside a).append (Arg.sitesOf_inside a args)

theorem Member.sitesOf_inside (a : Surroundings) (ms : List Member) :
    AllInside a (Member.sitesOf a ms) := by
  cases ms with
  | nil => exact .nil a
  | cons m ms =>
    cases m with
    | property span key value =>
      exact (key.sites_inside a).append <|
        ((Site.ofKey_inside a span key.directName?).append (value.sites_inside a)).append
          (Member.sitesOf_inside a ms)
    | shorthand span name nameSpan => exact .cons rfl (.cons rfl (Member.sitesOf_inside a ms))
    | spread span e => exact (e.sites_inside a).append (Member.sitesOf_inside a ms)

theorem PropertyValue.sites_inside (a : Surroundings) (value : PropertyValue) :
    AllInside a (value.sites a) := by
  cases value with
  | getter f => exact f.sites_inside a none
  | setter f => exact f.sites_inside a none
  | method f => exact f.sites_inside a none
  | value e => exact Expr.sitesOfOption_inside a e

theorem PropertyValue.instanceSites_inside (a : Surroundings) (value : PropertyValue) :
    AllInside a (value.instanceSites a) := by
  cases value with
  | getter f => exact f.sites_inside a none
  | setter f => exact f.sites_inside a none
  | method f => exact f.sites_inside a none
  | value e => exact .inFunction (Expr.sitesOfOption_inside _ e)

theorem ClassMember.sitesOf_inside (a : Surroundings) (ms : List ClassMember) :
    AllInside a (ClassMember.sitesOf a ms) := by
  cases ms with
  | nil => exact .nil a
  | cons m ms =>
    cases m with
    | property span isStatic key value =>
      cases isStatic with
      | true =>
        exact (key.sites_inside a).append <|
          ((Site.ofKey_inside a span key.directName?).append (value.sites_inside a)).append
            (ClassMember.sitesOf_inside a ms)
      | false =>
        exact (key.sites_inside a).append <|
          (value.instanceSites_inside a).append (ClassMember.sitesOf_inside a ms)
    | staticBlock span body =>
      exact (AllInside.inFunction <|
        (Stmt.functionSites_inside _ body).append (Stmt.sitesOf_inside _ body)).append
          (ClassMember.sitesOf_inside a ms)

theorem Func.sites_inside (a : Surroundings) (f : Func) (ownName : Option String) :
    AllInside a (f.sites a ownName) := by
  obtain ⟨span, _, _, _, params, body⟩ := f
  exact .inFunction ((Param.sitesOf_inside _ params).append (body.sites_inside _))

theorem Body.sites_inside (a : Surroundings) (body : Body) : AllInside a (body.sites a) := by
  cases body with
  | block body => exact (Stmt.functionSites_inside a body).append (Stmt.sitesOf_inside a body)
  | expr e => exact e.sites_inside a

theorem Param.sitesOf_inside (a : Surroundings) (ps : List Param) :
    AllInside a (Param.sitesOf a ps) := by
  cases ps with
  | nil => exact .nil a
  | cons p ps =>
    obtain ⟨span, isRest, pattern, default⟩ := p
    exact (pattern.sites_inside a).append <|
      (Expr.sitesOfOption_inside a default).append (Param.sitesOf_inside a ps)

theorem Pattern.sites_inside (a : Surroundings) (p : Pattern) : AllInside a (p.sites a) := by
  cases p with
  | ident span name => exact .single rfl
  | destructuring d => exact d.sites_inside a
  | target e => exact e.sites_inside a

theorem Pattern.sitesOfOption_inside (a : Surroundings) (p : Option Pattern) :
    AllInside a (Pattern.sitesOfOption a p) := by
  cases p with
  | none => exact .nil a
  | some p => exact p.sites_inside a

theorem Destructuring.sites_inside (a : Surroundings) (d : Destructuring) :
    AllInside a (d.sites a) := by
  cases d with
  | array span elements rest =>
    exact (PatternElement.sitesOf_inside a elements).append (Pattern.sitesOfOption_inside a rest)
  | object span properties rest =>
    exact (PatternProperty.sitesOf_inside a properties).append (Pattern.sitesOfOption_inside a rest)

theorem PatternElement.sitesOf_inside (a : Surroundings) (es : List PatternElement) :
    AllInside a (PatternElement.sitesOf a es) := by
  cases es with
  | nil => exact .nil a
  | cons e es =>
    cases e with
    | hole => exact PatternElement.sitesOf_inside a es
    | item target default =>
      exact (target.sites_inside a).append <|
        (Expr.sitesOfOption_inside a default).append (PatternElement.sitesOf_inside a es)

theorem PatternProperty.sitesOf_inside (a : Surroundings) (ps : List PatternProperty) :
    AllInside a (PatternProperty.sitesOf a ps) := by
  cases ps with
  | nil => exact .nil a
  | cons p ps =>
    obtain ⟨span, key, target, default⟩ := p
    exact (key.sites_inside a).append <| (target.sites_inside a).append <|
      (Expr.sitesOfOption_inside a default).append (PatternProperty.sitesOf_inside a ps)

theorem Stmt.sites_inside (a : Surroundings) (s : Stmt) : AllInside a (s.sites a) := by
  obtain ⟨span, doc, form⟩ := s
  exact form.sites_inside a

theorem Stmt.sitesOf_inside (a : Surroundings) (ss : List Stmt) :
    AllInside a (Stmt.sitesOf a ss) := by
  cases ss with
  | nil => exact .nil a
  | cons s ss => exact (s.sites_inside a).append (Stmt.sitesOf_inside a ss)

theorem Stmt.sitesOfOption_inside (a : Surroundings) (s : Option Stmt) :
    AllInside a (Stmt.sitesOfOption a s) := by
  cases s with
  | none => exact .nil a
  | some s => exact s.sites_inside a

theorem StmtForm.sites_inside (a : Surroundings) (form : StmtForm) :
    AllInside a (form.sites a) := by
  cases form with
  | block body =>
    exact .inBlock ((Stmt.functionSites_inside _ body).append (Stmt.sitesOf_inside _ body))
  | classDecl name nameSpan base members =>
    exact .cons rfl <|
      (Expr.sitesOfOption_inside a base).append (.inBlock (ClassMember.sitesOf_inside _ members))
  | doLoop body condition => exact (body.sites_inside a).append (condition.sites_inside a)
  | expr e => exact e.sites_inside a
  | forEach isOf isAwait head subject body =>
    exact .inBlock <| (subject.sites_inside _).append <|
      (head.sites_inside _).append (body.sites_inside _)
  | forLoop init condition update body =>
    exact .inBlock <| (init.sites_inside _).append <|
      (Expr.sitesOfOption_inside _ condition).append <|
        (body.sites_inside _).append (Expr.sitesOfOption_inside _ update)
  | funcDecl name nameSpan f => exact f.sites_inside a none
  | conditional test consequent alternate =>
    exact (test.sites_inside a).append <|
      (consequent.sites_inside a).append (Stmt.sitesOfOption_inside a alternate)
  | labelled name body => exact body.sites_inside a
  | returns value => exact Expr.sitesOfOption_inside a value
  | switch subject branches =>
    exact (subject.sites_inside a).append (.inBlock (Branch.sitesOf_inside _ branches))
  | throws value => exact value.sites_inside a
  | attempt body handler finalizer =>
    exact (body.sites_inside a).append <|
      (Handler.sitesOfOption_inside a handler).append (Block.sitesOfOption_inside a finalizer)
  | vars mode declarators => exact Declarator.sitesOf_inside a declarators
  | whileLoop condition body => exact (condition.sites_inside a).append (body.sites_inside a)
  | «scoped» owner body => exact (owner.sites_inside a).append (body.sites_inside a)
  | breakTo label => exact .nil a
  | continueTo label => exact .nil a
  | debugger => exact .nil a
  | empty => exact .nil a

theorem Declarator.sitesOf_inside (a : Surroundings) (ds : List Declarator) :
    AllInside a (Declarator.sitesOf a ds) := by
  cases ds with
  | nil => exact .nil a
  | cons d ds =>
    obtain ⟨p, value⟩ := d
    exact (p.sites_inside a).append <|
      (Expr.sitesOfOption_inside a value).append (Declarator.sitesOf_inside a ds)

theorem ForInit.sites_inside (a : Surroundings) (init : ForInit) :
    AllInside a (init.sites a) := by
  cases init with
  | nothing => exact .nil a
  | expr e => exact e.sites_inside a
  | vars span mode declarators => exact Declarator.sitesOf_inside a declarators

theorem ForHead.sites_inside (a : Surroundings) (head : ForHead) :
    AllInside a (head.sites a) := by
  cases head with
  | target e => exact e.sites_inside a
  | declares mode p => exact p.sites_inside a

theorem Branch.sitesOf_inside (a : Surroundings) (bs : List Branch) :
    AllInside a (Branch.sitesOf a bs) := by
  cases bs with
  | nil => exact .nil a
  | cons b bs =>
    obtain ⟨span, test, body⟩ := b
    exact (Expr.sitesOfOption_inside a test).append <|
      ((Stmt.functionSites_inside a body).append (Stmt.sitesOf_inside a body)).append
        (Branch.sitesOf_inside a bs)

theorem Handler.sitesOfOption_inside (a : Surroundings) (handler : Option Handler) :
    AllInside a (Handler.sitesOfOption a handler) := by
  cases handler with
  | none => exact .nil a
  | some handler =>
    obtain ⟨span, param, body⟩ := handler
    exact .inBlock <| (Pattern.sitesOfOption_inside _ param).append <|
      (Stmt.functionSites_inside _ body).append (Stmt.sitesOf_inside _ body)

theorem Block.sites_inside (a : Surroundings) (block : Block) : AllInside a (block.sites a) := by
  obtain ⟨span, body⟩ := block
  exact .inBlock ((Stmt.functionSites_inside _ body).append (Stmt.sitesOf_inside _ body))

theorem Block.sitesOfOption_inside (a : Surroundings) (block : Option Block) :
    AllInside a (Block.sitesOfOption a block) := by
  cases block with
  | none => exact .nil a
  | some block => exact block.sites_inside a

end

end NameAudit
