import NameAudit.Proofs.EvaluationOrder
import NameAudit.Proofs.Visits

/-!
Which references stand outside functions. The sites of a node are those of its parts and some that
stand just where the node does, so a site is inside a function only if the way down to it leads through
a function, a static block or the value of a field of instances (`exists_opening`). What opens a
function is read off the tree; that the walk opens and closes its scopes accordingly is what the sites
of a program say of its references.
-/
namespace NameAudit

/-- The sites of a node. -/
def Node.sites (a : Surroundings) : Node → List Site
  | .expr e => e.sites a
  | .pattern p => p.sites a
  | .func ownName f => f.sites a ownName
  | .staticBlock ss =>
    let inner := a.inFunction (Stmt.declaredNamesOf ss)
    Stmt.functionSites inner ss ++ Stmt.sitesOf inner ss
  | .stmts ss => Stmt.functionSites a ss ++ Stmt.sitesOf a ss
  | .stmt s => s.sites a
  | .block b => b.sites a
  | .branches bs => Branch.sitesOf (a.inBlock (Branch.lexicalNames bs)) bs
  | .handler h => Handler.sitesOfOption a (some h)

def Expr.classMembers (a : Surroundings) : Expr → List (Surroundings × ClassMember)
  | .classExpr _ name _ members => members.map fun m => (a.inBlock name.toList, m)
  | _ => []

def StmtForm.classMembers (a : Surroundings) : StmtForm → List (Surroundings × ClassMember)
  | .classDecl _ _ _ members => members.map fun m => (a.inBlock [], m)
  | _ => []

/-- The members of the class that a node is, with what is around them. -/
def Node.classMembers (a : Surroundings) : Node → List (Surroundings × ClassMember)
  | .expr e => e.classMembers a
  | .stmt (.mk _ _ form) => form.classMembers a
  | _ => []

/-- A node is a function or static block, or the value of a field of the instances of a class. Static
    fields are evaluated with their class and are not among these. -/
inductive Program.OpensFunction (p : Program) : Located → Prop
  | func {a : Surroundings} {ownName : Option String} {f : Func}
      (contained : p.Contains (a, .func ownName f)) : OpensFunction p (a, .func ownName f)
  | staticBlock {a : Surroundings} {ss : List Stmt}
      (contained : p.Contains (a, .staticBlock ss)) : OpensFunction p (a, .staticBlock ss)
  | field {x : Located} (contained : p.Contains x) {a : Surroundings} {span : Span} {key : Key}
      {e : Expr} (member : (a, .property span false key (.value (some e))) ∈ x.2.classMembers x.1) :
      OpensFunction p (a.inFunction [], .expr e)

/-- A site lies inside a function: in its parameters or its body, in a static block, or in the value of
    a field of instances. -/
def Program.InsideFunction (p : Program) (s : Site) : Prop :=
  ∃ x, p.OpensFunction x ∧ s ∈ x.2.sites x.1

/-! ### Where the sites of a node come from -/

/-- Surroundings are in no further function than others. -/
abbrev Surroundings.Alongside (b a : Surroundings) : Prop :=
  Scope.inFunction b.scopes = Scope.inFunction a.scopes

/-- Each site of a list is in no further function than `a`, or it comes from one of some parts, which is
    in no further function either unless it opens one. -/
def ComeFrom (opens : Located → Prop) (a : Surroundings) (parts : List Located)
    (sites : List Site) : Prop :=
  ∀ s ∈ sites, s.around.Alongside a ∨
    ∃ x ∈ parts, s ∈ x.2.sites x.1 ∧ (x.1.Alongside a ∨ opens x)

/-- The values of the fields of instances open functions. -/
def OpensFields (opens : Located → Prop) (members : List (Surroundings × ClassMember)) : Prop :=
  ∀ a span key e, (a, ClassMember.property span false key (.value (some e))) ∈ members →
    opens (a.inFunction [], .expr e)

variable {opens : Located → Prop}

namespace ComeFrom

variable {a : Surroundings} {n : Node} {parts others : List Located} {sites more : List Site}

theorem nil : ComeFrom opens a parts [] := fun _ member => nomatch member

theorem part (n : Node) : ComeFrom opens a [(a, n)] (n.sites a) :=
  fun _ member => .inr ⟨(a, n), List.mem_singleton_self _, member, .inl rfl⟩

theorem own (inside : ∀ s ∈ sites, s.around = a) : ComeFrom opens a parts sites :=
  fun s member => .inl (congrArg (Scope.inFunction ·.scopes) (inside s member))

theorem append (first : ComeFrom opens a parts sites) (second : ComeFrom opens a others more) :
    ComeFrom opens a (parts ++ others) (sites ++ more) := by
  intro s member
  rcases List.mem_append.mp member with before | after
  · refine (first s before).imp_right fun ⟨x, here, rest⟩ => ?_
    exact ⟨x, List.mem_append_left others here, rest⟩
  · refine (second s after).imp_right fun ⟨x, here, rest⟩ => ?_
    exact ⟨x, List.mem_append_right parts here, rest⟩

/-- A part, and then the others. -/
theorem cons (rest : ComeFrom opens a others more) :
    ComeFrom opens a ((a, n) :: others) (n.sites a ++ more) :=
  (part n).append rest

/-- Sites of no part, and then others. -/
theorem after (first : ComeFrom opens a [] sites) (second : ComeFrom opens a others more) :
    ComeFrom opens a others (sites ++ more) :=
  first.append second

/-- A block is no function. -/
theorem inBlock {names : List String} (inner : ComeFrom opens (a.inBlock names) parts sites) :
    ComeFrom opens a parts sites :=
  inner

end ComeFrom

section
variable (a : Surroundings)

theorem Site.ofKey_comeFrom (span : Span) (key : Option String) :
    ComeFrom opens a [] (Site.ofKey a span key) := by
  refine .own fun s member => ?_
  obtain ⟨base, _, rfl⟩ := List.mem_map.mp member
  rfl

theorem Stmt.functionSites_comeFrom (ss : List Stmt) :
    ComeFrom opens a [] (Stmt.functionSites a ss) := by
  refine .own ?_
  induction ss with
  | nil => exact fun _ member => nomatch member
  | cons s ss ih =>
    obtain ⟨span, doc, form⟩ := s
    cases form with
    | funcDecl name nameSpan f => exact List.forall_mem_cons.mpr ⟨rfl, ih⟩
    | _ => exact ih

theorem Expr.sitesOfOption_comeFrom (e : Option Expr) :
    ComeFrom opens a (Expr.optionalParts a e) (Expr.sitesOfOption a e) := by
  cases e with
  | none => exact .nil
  | some e => exact .part (.expr e)

theorem Pattern.sitesOfOption_comeFrom (p : Option Pattern) :
    ComeFrom opens a (Pattern.optionalParts a p) (Pattern.sitesOfOption a p) := by
  cases p with
  | none => exact .nil
  | some p => exact .part (.pattern p)

theorem Key.sites_comeFrom (key : Key) : ComeFrom opens a (key.parts a) (key.sites a) := by
  cases key with
  | computed e => exact .part (.expr e)
  | _ => exact .nil

theorem Expr.sitesOf_comeFrom (es : List Expr) :
    ComeFrom opens a (es.map fun e => (a, .expr e)) (Expr.sitesOf a es) := by
  induction es with
  | nil => exact .nil
  | cons e es ih => exact .cons ih

theorem Element.sitesOf_comeFrom (es : List Element) :
    ComeFrom opens a (es.flatMap (·.parts a)) (Element.sitesOf a es) := by
  induction es with
  | nil => exact .nil
  | cons e es ih =>
    cases e with
    | hole => exact ih
    | item e => exact .cons ih
    | spread e => exact .cons ih

theorem Arg.sitesOf_comeFrom (args : List Arg) :
    ComeFrom opens a (args.flatMap (·.parts a)) (Arg.sitesOf a args) := by
  induction args with
  | nil => exact .nil
  | cons arg args ih =>
    obtain ⟨span, isSpread, value⟩ := arg
    exact .cons ih

theorem PropertyValue.sites_comeFrom (value : PropertyValue) :
    ComeFrom opens a (value.parts a) (value.sites a) := by
  cases value with
  | value e => exact Expr.sitesOfOption_comeFrom a e
  | getter f => exact .part (.func none f)
  | setter f => exact .part (.func none f)
  | method f => exact .part (.func none f)

theorem PropertyValue.instanceSites_comeFrom (value : PropertyValue)
    (field : ∀ e, value = .value (some e) → opens (a.inFunction [], .expr e)) :
    ComeFrom opens a (value.instanceParts a) (value.instanceSites a) := by
  cases value with
  | value e =>
    cases e with
    | none => exact .nil
    | some e => exact fun s member => .inr ⟨_, List.mem_cons_self, member, .inr (field e rfl)⟩
  | getter f => exact .part (.func none f)
  | setter f => exact .part (.func none f)
  | method f => exact .part (.func none f)

theorem Member.sitesOf_comeFrom (ms : List Member) :
    ComeFrom opens a (ms.flatMap (·.parts a)) (Member.sitesOf a ms) := by
  induction ms with
  | nil => exact .nil
  | cons m ms ih =>
    cases m with
    | property span key value =>
      show ComeFrom opens a (key.parts a ++ value.parts a ++ _) _
      rw [List.append_assoc]
      refine (key.sites_comeFrom a).append ?_
      exact (ComeFrom.after (Site.ofKey_comeFrom a span key.directName?)
        (value.sites_comeFrom a)).append ih
    | shorthand span name nameSpan =>
      have keySite : ComeFrom opens a [] [.definition a nameSpan name] :=
        .own fun s member => List.mem_singleton.mp member ▸ rfl
      exact keySite.after (.cons ih)
    | spread span e => exact .cons ih

theorem ClassMember.sitesOf_comeFrom (ms : List ClassMember)
    (fields : OpensFields opens (ms.map fun m => (a, m))) :
    ComeFrom opens a (ms.flatMap (·.parts a)) (ClassMember.sitesOf a ms) := by
  induction ms with
  | nil => exact .nil
  | cons m ms ih =>
    have ih := ih fun b span key e member => fields b span key e (List.mem_cons_of_mem _ member)
    cases m with
    | property span isStatic key value =>
      cases isStatic with
      | true =>
        show ComeFrom opens a (key.parts a ++ value.parts a ++ _) _
        rw [List.append_assoc]
        refine (key.sites_comeFrom a).append ?_
        exact (ComeFrom.after (Site.ofKey_comeFrom a span key.directName?)
          (value.sites_comeFrom a)).append ih
      | false =>
        show ComeFrom opens a (key.parts a ++ value.instanceParts a ++ _) _
        rw [List.append_assoc]
        have field : ∀ e, value = .value (some e) → opens (a.inFunction [], .expr e) :=
          fun e same => fields a span key e (same ▸ List.mem_cons_self)
        exact (key.sites_comeFrom a).append ((value.instanceSites_comeFrom a field).append ih)
    | staticBlock span ss => exact ComeFrom.cons (n := .staticBlock ss) ih

theorem PatternElement.sitesOf_comeFrom (es : List PatternElement) :
    ComeFrom opens a (es.flatMap (·.parts a)) (PatternElement.sitesOf a es) := by
  induction es with
  | nil => exact .nil
  | cons e es ih =>
    cases e with
    | hole => exact ih
    | item target default => exact .cons ((Expr.sitesOfOption_comeFrom a default).append ih)

theorem PatternProperty.sitesOf_comeFrom (ps : List PatternProperty) :
    ComeFrom opens a (ps.flatMap (·.parts a)) (PatternProperty.sitesOf a ps) := by
  induction ps with
  | nil => exact .nil
  | cons p ps ih =>
    obtain ⟨span, key, target, default⟩ := p
    show ComeFrom opens a (key.parts a ++ (a, .pattern target) :: Expr.optionalParts a default ++ _) _
    rw [List.append_assoc]
    exact (key.sites_comeFrom a).append
      (.cons ((Expr.sitesOfOption_comeFrom a default).append ih))

theorem Destructuring.sites_comeFrom (d : Destructuring) :
    ComeFrom opens a (d.parts a) (d.sites a) := by
  cases d with
  | array span elements rest =>
    exact (PatternElement.sitesOf_comeFrom a elements).append (Pattern.sitesOfOption_comeFrom a rest)
  | object span properties rest =>
    exact (PatternProperty.sitesOf_comeFrom a properties).append
      (Pattern.sitesOfOption_comeFrom a rest)

theorem Param.sitesOf_comeFrom (ps : List Param) :
    ComeFrom opens a (ps.flatMap (·.parts a)) (Param.sitesOf a ps) := by
  induction ps with
  | nil => exact .nil
  | cons p ps ih =>
    obtain ⟨span, isRest, p, default⟩ := p
    exact .cons ((Expr.sitesOfOption_comeFrom a default).append ih)

theorem Declarator.sitesOf_comeFrom (ds : List Declarator) :
    ComeFrom opens a (ds.flatMap (·.parts a)) (Declarator.sitesOf a ds) := by
  induction ds with
  | nil => exact .nil
  | cons d ds ih =>
    obtain ⟨p, value⟩ := d
    exact .cons ((Expr.sitesOfOption_comeFrom a value).append ih)

theorem ForInit.sites_comeFrom (init : ForInit) : ComeFrom opens a (init.parts a) (init.sites a) := by
  cases init with
  | nothing => exact .nil
  | expr e => exact .part (.expr e)
  | vars span mode ds => exact Declarator.sitesOf_comeFrom a ds

theorem ForHead.sites_comeFrom (head : ForHead) : ComeFrom opens a (head.parts a) (head.sites a) := by
  cases head with
  | target e => exact .part (.expr e)
  | declares mode p => exact .part (.pattern p)

theorem Body.sites_comeFrom (body : Body) : ComeFrom opens a (body.parts a) (body.sites a) := by
  cases body with
  | block ss => exact .part (.stmts ss)
  | expr e => exact .part (.expr e)

theorem Stmt.sitesOf_comeFrom (ss : List Stmt) :
    ComeFrom opens a (ss.map fun s => (a, .stmt s)) (Stmt.sitesOf a ss) := by
  induction ss with
  | nil => exact .nil
  | cons s ss ih => exact .cons ih

theorem Branch.sitesOf_comeFrom (bs : List Branch) :
    ComeFrom opens a (bs.flatMap (·.parts a)) (Branch.sitesOf a bs) := by
  induction bs with
  | nil => exact .nil
  | cons b bs ih =>
    obtain ⟨span, test, body⟩ := b
    show ComeFrom opens a (Expr.optionalParts a test ++ [(a, .stmts body)] ++ _) _
    rw [List.append_assoc]
    exact (Expr.sitesOfOption_comeFrom a test).append (ComeFrom.cons (n := .stmts body) ih)

theorem Expr.sites_comeFrom (e : Expr) (fields : OpensFields opens (e.classMembers a)) :
    ComeFrom opens a (e.parts a) (e.sites a) := by
  have reads : ∀ e : Expr, ComeFrom opens a [(a, .expr e)] (e.sites a) := fun e => .part (.expr e)
  cases e with
  | ident span name => exact .own fun s member => List.mem_singleton.mp member ▸ rfl
  | literal | thisRef | superRef | newTarget => exact .nil
  | member span isOptional owner name =>
    show ComeFrom opens a [(a, .expr owner)] _
    rw [Expr.sites_member]
    cases (Expr.member span isOptional owner name).occurrence? with
    | some o => exact .own fun s member => List.mem_singleton.mp member ▸ rfl
    | none => exact reads owner
  | unary span op operand => exact reads operand
  | step span op operand => exact reads operand
  | index span isOptional owner key => exact .cons (reads key)
  | assign span op target value => exact .cons (reads value)
  | binary span op left right => exact .cons (reads right)
  | comma span left right => exact .cons (reads right)
  | conditional span test consequent alternate => exact .cons (.cons (reads alternate))
  | call span isOptional callee args => exact .cons (Arg.sitesOf_comeFrom a args)
  | construct span callee args => exact .cons (Arg.sitesOf_comeFrom a args)
  | yield span isDelegate argument => exact Expr.sitesOfOption_comeFrom a argument
  | func span name f => exact .part (.func name f)
  | classExpr span name base members =>
    exact (Expr.sitesOfOption_comeFrom a base).append
      (.inBlock (ClassMember.sitesOf_comeFrom _ members fields))
  | array span elements => exact Element.sitesOf_comeFrom a elements
  | object span members => exact Member.sitesOf_comeFrom a members
  | template span tag substitutions =>
    exact (Expr.sitesOfOption_comeFrom a tag).append (Expr.sitesOf_comeFrom a substitutions)
  | destructuring d => exact d.sites_comeFrom a

theorem Pattern.sites_comeFrom (p : Pattern) : ComeFrom opens a (p.parts a) (p.sites a) := by
  cases p with
  | ident span name => exact .own fun s member => List.mem_singleton.mp member ▸ rfl
  | destructuring d => exact d.sites_comeFrom a
  | target e => exact .part (.expr e)

theorem StmtForm.sites_comeFrom (form : StmtForm) (fields : OpensFields opens (form.classMembers a)) :
    ComeFrom opens (form.inside a) (form.parts (form.inside a)) (form.sites a) := by
  have runs : ∀ (a : Surroundings) (s : Stmt), ComeFrom opens a [(a, .stmt s)] (s.sites a) :=
    fun a s => .part (.stmt s)
  have reads : ∀ (a : Surroundings) (e : Expr), ComeFrom opens a [(a, .expr e)] (e.sites a) :=
    fun a e => .part (.expr e)
  cases form with
  | breakTo | continueTo | debugger | empty => exact .nil
  | block ss => exact .part (.stmts ss)
  | classDecl name nameSpan base members =>
    have own : ComeFrom opens a [] [.definition a nameSpan name] :=
      .own fun s member => List.mem_singleton.mp member ▸ rfl
    exact own.after <| (Expr.sitesOfOption_comeFrom a base).append
      (.inBlock (ClassMember.sitesOf_comeFrom _ members fields))
  | doLoop body condition => exact (runs a body).append (reads a condition)
  | expr e => exact reads a e
  | forEach isOf isAwait head subject body =>
    exact .cons ((head.sites_comeFrom _).append (runs _ body))
  | forLoop init condition update body =>
    exact (init.sites_comeFrom _).append <| (Expr.sitesOfOption_comeFrom _ condition).append <|
      (runs _ body).append (Expr.sitesOfOption_comeFrom _ update)
  | funcDecl name nameSpan f => exact .part (.func none f)
  | conditional test consequent alternate =>
    refine (reads a test).append ((runs a consequent).append ?_)
    cases alternate with
    | none => exact .nil
    | some s => exact runs a s
  | labelled name body => exact runs a body
  | returns value => exact Expr.sitesOfOption_comeFrom a value
  | switch subject branches => exact (reads a subject).append (.part (.branches branches))
  | throws value => exact reads a value
  | attempt body handler finalizer =>
    refine (ComeFrom.part (.block body)).append (.append ?_ ?_)
    · cases handler with
      | none => exact .nil
      | some h => exact .part (.handler h)
    · cases finalizer with
      | none => exact .nil
      | some b => exact .part (.block b)
  | vars mode ds => exact Declarator.sitesOf_comeFrom a ds
  | whileLoop condition body => exact (reads a condition).append (runs a body)
  | «scoped» owner body => exact (reads a owner).append (runs a body)

/-- The sites of a node are those of its parts, and some that are in no further function than what is
    inside the node. -/
theorem Node.sites_comeFrom (n : Node) (fields : OpensFields opens (n.classMembers a)) :
    ComeFrom opens (n.inside a) (n.parts a) (n.sites a) := by
  cases n with
  | expr e => exact e.sites_comeFrom a fields
  | pattern p => exact p.sites_comeFrom a
  | func ownName f =>
    obtain ⟨span, isArrow, isAsync, isGenerator, params, body⟩ := f
    exact (Param.sitesOf_comeFrom _ params).append (body.sites_comeFrom _)
  | staticBlock ss => exact .part (.stmts ss)
  | stmts ss => exact (Stmt.functionSites_comeFrom a ss).after (Stmt.sitesOf_comeFrom a ss)
  | stmt s =>
    obtain ⟨span, doc, form⟩ := s
    exact form.sites_comeFrom a fields
  | block b =>
    obtain ⟨span, ss⟩ := b
    exact .part (.stmts ss)
  | branches bs => exact Branch.sitesOf_comeFrom _ bs
  | handler h =>
    obtain ⟨span, param, ss⟩ := h
    let inner := a.inBlock (Pattern.namesOfRest param ++ Stmt.lexicalNames ss)
    exact (Pattern.sitesOfOption_comeFrom inner param).append (.part (.stmts ss))

end

/-! ### The way down to a site -/

/-- Other nodes are in no further function inside than outside. -/
theorem Node.inside_alongside {n : Node} (other : n.isFunction = false) (a : Surroundings) :
    (n.inside a).Alongside a := by
  cases n with
  | func | staticBlock => cases other
  | expr | pattern | stmts => rfl
  | stmt s =>
    obtain ⟨span, doc, form⟩ := s
    cases form <;> rfl
  | block b =>
    obtain ⟨span, ss⟩ := b
    rfl
  | branches bs => rfl
  | handler h =>
    obtain ⟨span, param, ss⟩ := h
    rfl

/-- What stands inside surroundings in a function is in a function. -/
theorem Surroundings.Inside.inFunction {b a : Surroundings} (inside : b.Inside a)
    (function : Scope.inFunction a.scopes = true) : Scope.inFunction b.scopes = true := by
  obtain ⟨scope, member, isFunction⟩ := List.any_eq_true.mp function
  exact List.any_eq_true.mpr ⟨scope, inside.scopes.subset member, isFunction⟩

namespace Program

variable {p : Program} {s : Site} {x : Located}

/-- All that a node which opens a function holds is in a function. -/
theorem OpensFunction.inFunction (opens : p.OpensFunction x) (member : s ∈ x.2.sites x.1) :
    Scope.inFunction s.around.scopes = true := by
  cases opens with
  | @func a ownName f contained =>
    obtain ⟨span, isArrow, isAsync, isGenerator, params, body⟩ := f
    have inside := (Param.sitesOf_inside _ params).append (body.sites_inside _) s member
    exact inside.inFunction rfl
  | @staticBlock a ss contained =>
    have inside := (Stmt.functionSites_inside _ ss).append (Stmt.sitesOf_inside _ ss) s member
    exact inside.inFunction rfl
  | field contained classMember => exact (Expr.sites_inside _ _ s member).inFunction rfl

/-- The way from a node outside functions down to a site in a function leads through what opens it. -/
theorem exists_opening (contained : p.Contains x) (member : s ∈ x.2.sites x.1)
    (function : Scope.inFunction s.around.scopes = true) :
    Scope.inFunction x.1.scopes = true ∨ p.InsideFunction s := by
  induction x using Located.induction with
  | step x ih =>
    cases body : x.2.isFunction with
    | true =>
      obtain ⟨a, n⟩ := x
      cases n with
      | func ownName f => exact .inr ⟨_, .func contained, member⟩
      | staticBlock ss => exact .inr ⟨_, .staticBlock contained, member⟩
      | _ => cases body
    | false =>
      have outside := x.2.inside_alongside body x.1
      have fields : OpensFields p.OpensFunction (x.2.classMembers x.1) :=
        fun a span key e isField => .field contained isField
      rcases x.2.sites_comeFrom x.1 fields s member with own | ⟨y, holds, inside, around⟩
      · exact .inl (outside.symm.trans (own.symm.trans function))
      · rcases around with alongside | opens
        · refine (ih y holds (contained.part holds) inside).imp_left fun deeper => ?_
          exact outside.symm.trans (alongside.symm.trans deeper)
        · exact .inr ⟨y, opens, inside⟩

theorem exists_file_of_mem_sites (member : s ∈ p.sites) :
    ∃ (slot : Slot) (source : SourceFile),
      p.Contains (⟨slot, source.id, []⟩, .stmts source.script.body) ∧ s ∈ source.sites slot := by
  rcases List.mem_append.mp member with externs | chunks
  · obtain ⟨source, isFile, inside⟩ := List.mem_flatMap.mp externs
    exact ⟨.externs, source, ⟨.externs, source, trivial, isFile, .refl⟩, inside⟩
  · obtain ⟨c, loaded, files⟩ := List.mem_flatMap.mp chunks
    obtain ⟨source, isFile, inside⟩ := List.mem_flatMap.mp files
    exact ⟨.chunk c, source, ⟨.chunk c, source, loaded, isFile, .refl⟩, inside⟩

theorem insideFunction_iff (member : s ∈ p.sites) :
    p.InsideFunction s ↔ Scope.inFunction s.around.scopes = true := by
  constructor
  · rintro ⟨x, opens, inside⟩
    exact opens.inFunction inside
  · intro function
    obtain ⟨slot, source, contained, inside⟩ := exists_file_of_mem_sites member
    rcases exists_opening contained inside function with outside | opened
    · cases outside
    · exact opened

end Program

/-- The references of a program are those of its sites, one site after the other, and a reference
    stands outside functions just when its site does not lie inside one. -/
theorem Namespace.ofProgram_isGlobal (p : Program) :
    ∃ parts, (ofProgram p).refs.toList = parts.flatten ∧
      List.Forall₂ (fun s refs => s.Records (ofProgram p) refs ∧
        ∀ r ∈ refs, (r.isGlobal = false ↔ p.InsideFunction s)) p.sites parts := by
  obtain ⟨parts, recorded, refs⟩ := ofProgram_refs_by_sites p
  refine ⟨parts, refs, ?_⟩
  have known := (List.forall₂_and_left p.sites parts).mpr ⟨fun s member => member, recorded⟩
  refine known.imp fun s refs ⟨member, records⟩ => ⟨records, fun r here => ?_⟩
  rw [Program.insideFunction_iff member, (records.standsAt here).isGlobal, Bool.not_eq_false']

/-- In `class C { static x = b; }`, the value of the static field is read outside functions. -/
theorem global_static_field :
    ∃ (p : Program) (x : Located) (a : Surroundings) (span : Span) (key : Key) (e : Expr),
      p.Contains x ∧ (a, .property span true key (.value (some e))) ∈ x.2.classMembers x.1 ∧
      ∃ s ∈ e.sites a, ∃ r ∈ (Namespace.ofProgram p).refs.toList,
        r.StandsAt s.around s.span ∧ r.isGlobal = true := by
  let b : Expr := .ident ⟨21, 22⟩ "b"
  let field : ClassMember := .property ⟨10, 23⟩ true (.direct "x") (.value (some b))
  let statement : Stmt := .mk ⟨0, 25⟩ none (.classDecl "C" ⟨6, 7⟩ none [field])
  have contained := (Program.contains_ofStatements [statement]).part List.mem_cons_self
  have found : (Namespace.ofProgram (.ofStatements [statement])).refs[2]? =
      some ⟨⟨2⟩, ⟨2⟩, .aliasingGet, ⟨.chunk ⟨0⟩, ⟨⟨0⟩, ⟨21, 22⟩⟩, 2⟩, true, .none, false, none⟩ := by
    decide +kernel
  refine ⟨_, _, _, _, _, _, contained, List.mem_cons_self, _, List.mem_cons_self, _,
    Array.mem_toList_iff.mpr (Array.mem_of_getElem? found), ?_, rfl⟩
  exact ⟨rfl, rfl, fun _ _ => rfl, rfl⟩

end NameAudit
