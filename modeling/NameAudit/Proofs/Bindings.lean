import NameAudit.Proofs.Parts

/-!
Which names a node binds inside, told from the declarations in it. A pattern binds the identifiers in it
that are no keys, defaults or targets (`Pattern.Binds`). A function and a static block bind whatever is
declared in them at any depth, as long as no other function or static block is around it
(`DeclaredWithin`); a block binds what `let`, `const` and `class` declare directly in it, and a loop or
a handler what its head declares. All of these are names of the scope that the walk opens for the node
(`Node.Binds.isLocal`).
-/
namespace NameAudit

/-! ### Declarations -/

/-- A pattern binds an identifier that stands in it as a whole, as a value that is taken out, or as the
rest. -/
inductive Pattern.Binds (name : String) : Pattern → Prop
  | ident {span : Span} : Binds name (.ident span name)
  | element {span : Span} {elements : List PatternElement} {rest : Option Pattern} {target : Pattern}
    {default : Option Expr} (member : .item target default ∈ elements) (inner : Binds name target) :
    Binds name (.destructuring (.array span elements rest))
  | restOfElements {span : Span} {elements : List PatternElement} {p : Pattern} (inner : Binds name p) :
    Binds name (.destructuring (.array span elements (some p)))
  | property {span inSpan : Span} {properties : List PatternProperty} {rest : Option Pattern} {key : Key}
    {target : Pattern} {default : Option Expr} (member : .mk inSpan key target default ∈ properties)
    (inner : Binds name target) : Binds name (.destructuring (.object span properties rest))
  | restOfProperties {span : Span} {properties : List PatternProperty} {p : Pattern}
    (inner : Binds name p) : Binds name (.destructuring (.object span properties (some p)))

/-- A declarator binds a name. -/
def Declarator.Binds (name : String) : Declarator → Prop
  | .mk p _ => p.Binds name

/-- A parameter binds a name. -/
def Param.Binds (name : String) : Param → Prop
  | .mk _ _ p _ => p.Binds name

/-- The statements of a branch. -/
def Branch.body : Branch → List Stmt
  | .mk _ _ body => body

/-- A node is itself the declaration of a name. -/
def Node.Declares (name : String) : Node → Prop
  | .stmt (.mk _ _ (.vars _ ds)) => ∃ d ∈ ds, d.Binds name
  | .stmt (.mk _ _ (.classDecl declared _ _ _)) => declared = name
  | .stmt (.mk _ _ (.funcDecl declared _ _)) => declared = name
  | .stmt (.mk _ _ (.forEach _ _ (.declares _ p) _ _)) => p.Binds name
  | .stmt (.mk _ _ (.forLoop (.vars _ _ ds) _ _ _)) => ∃ d ∈ ds, d.Binds name
  | .handler (.mk _ (some p) _) => p.Binds name
  | _ => False

/-- A name is declared somewhere in statements, outside functions and static blocks in them. -/
def DeclaredWithin (ss : List Stmt) (name : String) : Prop :=
  ∃ a y, Relation.ReflTransGen (fun x y => Holds x y ∧ x.2.isFunction = false) (a, .stmts ss) y ∧
    y.2.Declares name

/-- A statement declares a name by `let`, `const` or `class`. -/
def Stmt.DeclaresLexically (name : String) : Stmt → Prop
  | .mk _ _ (.vars mode ds) => mode ≠ .var ∧ ∃ d ∈ ds, d.Binds name
  | .mk _ _ (.classDecl declared _ _ _) => declared = name
  | _ => False

/-- A name is declared directly in statements by `let`, `const` or `class`. -/
def DeclaredDirectly (ss : List Stmt) (name : String) : Prop := ∃ s ∈ ss, s.DeclaresLexically name

/-- A node opens a scope that binds a name. -/
def Node.Binds (name : String) : Node → Prop
  | .func ownName (.mk _ _ _ _ params body) =>
    (∃ p ∈ params, p.Binds name) ∨ ownName = some name ∨
      ∃ ss, body = .block ss ∧ DeclaredWithin ss name
  | .staticBlock ss => DeclaredWithin ss name
  | .stmt (.mk _ _ (.block ss)) => DeclaredDirectly ss name
  | .stmt (.mk _ _ (.forEach _ _ (.declares mode p) _ _)) => mode ≠ .var ∧ p.Binds name
  | .stmt (.mk _ _ (.forLoop (.vars _ mode ds) _ _ _)) => mode ≠ .var ∧ ∃ d ∈ ds, d.Binds name
  | .block (.mk _ ss) => DeclaredDirectly ss name
  | .branches bs => ∃ b ∈ bs, DeclaredDirectly b.body name
  | .handler (.mk _ param ss) => (∃ p ∈ param, p.Binds name) ∨ DeclaredDirectly ss name
  | _ => False

/-! ### Names of patterns, declarators, parameters and blocks -/

section
variable {name : String}

mutual

/-- The names of a pattern are those that it binds. -/
theorem Pattern.mem_names (p : Pattern) : name ∈ p.names ↔ p.Binds name := by
  cases p with
  | ident span other =>
    constructor
    · intro member
      obtain rfl := List.mem_singleton.mp member
      exact .ident
    · rintro ⟨⟩
      exact List.mem_singleton_self name
  | destructuring d => exact d.mem_names
  | target e => exact ⟨nofun, nofun⟩

theorem Destructuring.mem_names (d : Destructuring) :
    name ∈ d.names ↔ (Pattern.destructuring d).Binds name := by
  cases d with
  | array span elements rest =>
    rw [Destructuring.names, List.mem_append, PatternElement.mem_namesOf, Pattern.mem_namesOfRest]
    constructor
    · rintro (⟨target, default, member, inner⟩ | ⟨p, rfl, inner⟩)
      · exact .element member inner
      · exact .restOfElements inner
    · rintro (_ | ⟨member, inner⟩ | inner)
      · exact .inl ⟨_, _, member, inner⟩
      · exact .inr ⟨_, rfl, inner⟩
  | object span properties rest =>
    rw [Destructuring.names, List.mem_append, PatternProperty.mem_namesOf, Pattern.mem_namesOfRest]
    constructor
    · rintro (⟨inSpan, key, target, default, member, inner⟩ | ⟨p, rfl, inner⟩)
      · exact .property member inner
      · exact .restOfProperties inner
    · rintro (_ | _ | _ | ⟨member, inner⟩ | inner)
      · exact .inl ⟨_, _, _, _, member, inner⟩
      · exact .inr ⟨_, rfl, inner⟩

theorem PatternElement.mem_namesOf (es : List PatternElement) : name ∈ PatternElement.namesOf es ↔
    ∃ target default, .item target default ∈ es ∧ target.Binds name := by
  cases es with
  | nil => simp [PatternElement.namesOf]
  | cons e es =>
    cases e with
    | hole => simp [PatternElement.namesOf, PatternElement.mem_namesOf es]
    | item target default =>
      simp [PatternElement.namesOf, target.mem_names, PatternElement.mem_namesOf es, or_and_right, exists_or]

theorem PatternProperty.mem_namesOf (ps : List PatternProperty) : name ∈ PatternProperty.namesOf ps ↔
    ∃ span key target default, .mk span key target default ∈ ps ∧ target.Binds name := by
  cases ps with
  | nil => simp [PatternProperty.namesOf]
  | cons p ps =>
    obtain ⟨span, key, target, default⟩ := p
    rw [PatternProperty.namesOf, List.mem_append, target.mem_names, PatternProperty.mem_namesOf ps]
    constructor
    · rintro (first | ⟨_, _, _, _, later, inner⟩)
      · exact ⟨span, key, target, default, List.mem_cons_self, first⟩
      · exact ⟨_, _, _, _, List.mem_cons_of_mem _ later, inner⟩
    · rintro ⟨_, _, _, _, member, inner⟩
      rcases List.mem_cons.mp member with same | later
      · cases same
        exact .inl inner
      · exact .inr ⟨_, _, _, _, later, inner⟩

theorem Pattern.mem_namesOfRest (rest : Option Pattern) :
    name ∈ Pattern.namesOfRest rest ↔ ∃ p, rest = some p ∧ p.Binds name := by
  cases rest with
  | none => simp [Pattern.namesOfRest]
  | some p => simp [Pattern.namesOfRest, p.mem_names]

end

theorem mem_namesOf_declarators {ds : List Declarator} :
    name ∈ Declarator.namesOf ds ↔ ∃ d ∈ ds, d.Binds name := by
  induction ds with
  | nil => simp [Declarator.namesOf]
  | cons d ds ih =>
    obtain ⟨p, value⟩ := d
    simp [Declarator.namesOf, Declarator.Binds, p.mem_names, ih]

theorem mem_namesOf_params {ps : List Param} :
    name ∈ Param.namesOf ps ↔ ∃ p ∈ ps, p.Binds name := by
  induction ps with
  | nil => simp [Param.namesOf]
  | cons p ps ih =>
    obtain ⟨span, isRest, pattern, default⟩ := p
    simp [Param.namesOf, Param.Binds, pattern.mem_names, ih]

theorem mem_blockNames {mode : DeclarationMode} {names : List String} :
    name ∈ blockNames mode names ↔ mode ≠ .var ∧ name ∈ names := by
  cases mode <;> simp [blockNames]

theorem mem_lexicalNames {ss : List Stmt} :
    name ∈ Stmt.lexicalNames ss ↔ DeclaredDirectly ss name := by
  induction ss with
  | nil => simp [Stmt.lexicalNames, DeclaredDirectly]
  | cons s ss ih =>
    have split : DeclaredDirectly (s :: ss) name ↔
        s.DeclaresLexically name ∨ DeclaredDirectly ss name := by
      simp [DeclaredDirectly]
    rw [split, ← ih]
    obtain ⟨span, doc, form⟩ := s
    cases form with
    | vars mode ds =>
      simp [Stmt.lexicalNames, Stmt.DeclaresLexically, mem_blockNames, mem_namesOf_declarators]
    | classDecl declared nameSpan base members =>
      simp [Stmt.lexicalNames, Stmt.DeclaresLexically, eq_comm]
    | _ => simp [Stmt.lexicalNames, Stmt.DeclaresLexically]

theorem mem_branch_lexicalNames {bs : List Branch} :
    name ∈ Branch.lexicalNames bs ↔ ∃ b ∈ bs, DeclaredDirectly b.body name := by
  induction bs with
  | nil => simp [Branch.lexicalNames]
  | cons b bs ih =>
    obtain ⟨span, test, body⟩ := b
    simp [Branch.lexicalNames, Branch.body, mem_lexicalNames, ih]

end

/-! ### Names that are declared at any depth -/

/-- Everything that a node declares. -/
def Node.declaredNames : Node → List String
  | .stmts ss => Stmt.declaredNamesOf ss
  | .stmt s => s.declaredNames
  | .block b => b.declaredNames
  | .branches bs => Branch.declaredNamesOf bs
  | .handler h => Handler.declaredNamesOfOption (some h)
  | .expr _ | .pattern _ | .func _ _ | .staticBlock _ => []

/-- No part of a list declares anything, but in the functions in it. -/
abbrev AllSilent (parts : List Located) : Prop := AllParts (·.declaredNames = []) parts

section
variable (a : Surroundings)

theorem Expr.optionalParts_silent (e : Option Expr) : AllSilent (Expr.optionalParts a e) := by
  cases e with
  | none => exact .nil
  | some e => exact .single rfl

theorem Pattern.optionalParts_silent (p : Option Pattern) :
    AllSilent (Pattern.optionalParts a p) := by
  cases p with
  | none => exact .nil
  | some p => exact .single rfl

theorem Key.parts_silent (key : Key) : AllSilent (key.parts a) := by
  cases key with
  | computed e => exact .single rfl
  | _ => exact .nil

theorem PropertyValue.parts_silent (value : PropertyValue) : AllSilent (value.parts a) := by
  cases value with
  | value e => exact Expr.optionalParts_silent a e
  | _ => exact .single rfl

theorem PropertyValue.instanceParts_silent (value : PropertyValue) :
    AllSilent (value.instanceParts a) := by
  cases value with
  | value e => exact Expr.optionalParts_silent _ e
  | _ => exact .single rfl

theorem Member.parts_silent (m : Member) : AllSilent (m.parts a) := by
  cases m with
  | property span key value => exact (key.parts_silent a).append (value.parts_silent a)
  | _ => exact .single rfl

theorem ClassMember.parts_silent (m : ClassMember) : AllSilent (m.parts a) := by
  cases m with
  | property span isStatic key value =>
    cases isStatic with
    | true => exact (key.parts_silent a).append (value.parts_silent a)
    | false => exact (key.parts_silent a).append (value.instanceParts_silent a)
  | staticBlock span body => exact .single rfl

theorem ClassMember.partsOf_silent (ms : List ClassMember) : AllSilent (ms.flatMap (·.parts a)) :=
  AllParts.flatMap fun m _ => m.parts_silent a

theorem Destructuring.parts_silent (d : Destructuring) : AllSilent (d.parts a) := by
  cases d with
  | array span elements rest =>
    refine (AllParts.flatMap fun e _ => ?_).append (Pattern.optionalParts_silent a rest)
    cases e with
    | hole => exact .nil
    | item target default => exact .cons rfl (Expr.optionalParts_silent a default)
  | object span properties rest =>
    refine (AllParts.flatMap fun p _ => ?_).append (Pattern.optionalParts_silent a rest)
    obtain ⟨span, key, target, default⟩ := p
    exact (key.parts_silent a).append (.cons rfl (Expr.optionalParts_silent a default))

theorem Declarator.partsOf_silent (ds : List Declarator) : AllSilent (ds.flatMap (·.parts a)) := by
  refine AllParts.flatMap fun d _ => ?_
  obtain ⟨p, value⟩ := d
  exact .cons rfl (Expr.optionalParts_silent a value)

/-- Expressions declare nothing. -/
theorem Expr.parts_silent (e : Expr) : AllSilent (e.parts a) := by
  have args : ∀ args : List Arg, AllSilent (args.flatMap (·.parts a)) := fun args =>
    AllParts.flatMap fun arg _ => by
      cases arg
      exact .single rfl
  cases e with
  | ident | literal | thisRef | superRef | newTarget => exact .nil
  | member | unary | step | func => exact .single rfl
  | index | assign | binary | comma => exact .cons rfl (.single rfl)
  | conditional => exact .cons rfl (.cons rfl (.single rfl))
  | call span isOptional callee arguments => exact .cons rfl (args arguments)
  | construct span callee arguments => exact .cons rfl (args arguments)
  | yield span isDelegate argument => exact Expr.optionalParts_silent a argument
  | classExpr span name base members =>
    exact (Expr.optionalParts_silent a base).append (ClassMember.partsOf_silent _ members)
  | array span elements =>
    refine AllParts.flatMap fun e _ => ?_
    cases e with
    | hole => exact .nil
    | _ => exact .single rfl
  | object span members => exact AllParts.flatMap fun m _ => m.parts_silent a
  | template span tag substitutions =>
    refine (Expr.optionalParts_silent a tag).append fun x member => ?_
    obtain ⟨e, _, rfl⟩ := List.mem_map.mp member
    rfl
  | destructuring d => exact d.parts_silent a

end

/-- Statements declare what each of them declares. -/
theorem mem_declaredNamesOf {name : String} {ss : List Stmt} :
    name ∈ Stmt.declaredNamesOf ss ↔ ∃ s ∈ ss, name ∈ s.declaredNames := by
  induction ss with
  | nil => simp [Stmt.declaredNamesOf]
  | cons s ss ih => simp [Stmt.declaredNamesOf, ih]

/-- The branches of a switch declare what the statements in them declare. -/
theorem mem_branch_declaredNamesOf {name : String} {bs : List Branch} :
    name ∈ Branch.declaredNamesOf bs ↔ ∃ b ∈ bs, name ∈ Stmt.declaredNamesOf b.body := by
  induction bs with
  | nil => simp [Branch.declaredNamesOf]
  | cons b bs ih =>
    obtain ⟨span, test, body⟩ := b
    simp [Branch.declaredNamesOf, Branch.body, ih]

/-- The names that some parts declare are among others. -/
abbrev AllDeclareIn (names : List String) (parts : List Located) : Prop :=
  AllParts (·.declaredNames ⊆ names) parts

theorem AllParts.declareIn {parts : List Located} (silent : AllSilent parts) (names : List String) :
    AllDeclareIn names parts := by
  intro x member
  rw [silent x member]
  exact List.nil_subset names

/-- The parts of a form of statement declare nothing that the form does not declare. -/
theorem StmtForm.parts_declareIn (a : Surroundings) (form : StmtForm) :
    AllDeclareIn form.declaredNames (form.parts a) := by
  cases form with
  | breakTo | continueTo | debugger | empty => exact .nil
  | block | labelled => exact .single (List.Subset.refl _)
  | expr | throws | funcDecl => exact .single (List.nil_subset _)
  | doLoop body condition =>
    exact .cons (List.Subset.refl _) (.single (List.nil_subset _))
  | whileLoop condition body =>
    exact .cons (List.nil_subset _) (.single (List.Subset.refl _))
  | «scoped» owner body => exact .cons (List.nil_subset _) (.single (List.Subset.refl _))
  | classDecl name nameSpan base members =>
    exact ((Expr.optionalParts_silent a base).append
      (ClassMember.partsOf_silent _ members)).declareIn _
  | forEach isOf isAwait head subject body =>
    refine .cons (List.nil_subset _) (.append ?_ (.single (List.subset_append_right _ _)))
    cases head <;> exact .single (List.nil_subset _)
  | forLoop init condition update body =>
    refine .append (AllParts.declareIn ?_ _) <|
      ((Expr.optionalParts_silent a condition).declareIn _).append <|
        .cons (List.subset_append_right _ _) ((Expr.optionalParts_silent a update).declareIn _)
    cases init with
    | nothing => exact .nil
    | expr e => exact .single rfl
    | vars span mode ds => exact Declarator.partsOf_silent a ds
  | conditional test consequent alternate =>
    refine .cons (List.nil_subset _) (.cons (List.subset_append_left _ _) ?_)
    cases alternate with
    | none => exact .nil
    | some s => exact .single (List.subset_append_right _ _)
  | returns value => exact (Expr.optionalParts_silent a value).declareIn _
  | switch subject branches =>
    exact .cons (List.nil_subset _) (.single (List.Subset.refl _))
  | attempt body handler finalizer =>
    refine .cons ?_ (.append ?_ ?_)
    · exact List.Subset.trans (List.subset_append_left _ _) (List.subset_append_left _ _)
    · cases handler with
      | none => exact .nil
      | some h =>
        exact .single (List.Subset.trans (List.subset_append_right _ _) (List.subset_append_left _ _))
    · cases finalizer with
      | none => exact .nil
      | some b => exact .single (List.subset_append_right _ _)
  | vars mode ds => exact (Declarator.partsOf_silent a ds).declareIn _

/-- The parts of a node that is no function declare nothing that the node does not declare. -/
theorem Node.parts_declareIn (a : Surroundings) (n : Node) (outside : n.isFunction = false) :
    AllDeclareIn n.declaredNames (n.partsInside a) := by
  cases n with
  | expr e => exact (e.parts_silent a).declareIn []
  | pattern p =>
    cases p with
    | ident => exact .nil
    | destructuring d => exact (d.parts_silent a).declareIn []
    | target e => exact .single (List.nil_subset _)
  | func | staticBlock => cases outside
  | stmts ss =>
    intro x member
    obtain ⟨s, here, rfl⟩ := List.mem_map.mp member
    exact fun name declared => mem_declaredNamesOf.mpr ⟨s, here, declared⟩
  | stmt s =>
    obtain ⟨span, doc, form⟩ := s
    exact form.parts_declareIn a
  | block b =>
    obtain ⟨span, ss⟩ := b
    exact .single (List.Subset.refl _)
  | branches bs =>
    refine AllParts.flatMap fun b here => ?_
    obtain ⟨span, test, ss⟩ := b
    refine ((Expr.optionalParts_silent a test).declareIn _).append (.single fun name declared => ?_)
    exact mem_branch_declaredNamesOf.mpr ⟨_, here, declared⟩
  | handler h =>
    obtain ⟨span, param, ss⟩ := h
    exact ((Pattern.optionalParts_silent a param).declareIn _).append
      (.single (List.subset_append_right _ _))

section
variable {name : String}

theorem Node.Declares.mem_declaredNames {n : Node} (declares : n.Declares name) :
    name ∈ n.declaredNames := by
  unfold Node.Declares at declares
  split at declares
  next => exact mem_namesOf_declarators.mpr declares
  next => exact List.mem_singleton.mpr declares.symm
  next => exact List.mem_singleton.mpr declares.symm
  next p _ _ => exact List.mem_append_left _ (p.mem_names.mpr declares)
  next => exact List.mem_append_left _ (mem_namesOf_declarators.mpr declares)
  next p _ => exact List.mem_append_left _ (p.mem_names.mpr declares)
  next => exact declares.elim

/-- What is declared at some depth in statements, outside functions, is among what they declare. -/
theorem DeclaredWithin.mem_declaredNamesOf {ss : List Stmt} (declared : DeclaredWithin ss name) :
    name ∈ Stmt.declaredNamesOf ss := by
  obtain ⟨a, y, reached, declares⟩ := declared
  have deep : ∀ x, Relation.ReflTransGen (fun x y => Holds x y ∧ x.2.isFunction = false) x y →
      name ∈ x.2.declaredNames := by
    intro x reached
    -- Upwards from the declaration: what a part declares, the node around it declares.
    induction reached using Relation.ReflTransGen.head_induction_on with
    | refl => exact declares.mem_declaredNames
    | head holds _ ih => exact Node.parts_declareIn _ _ holds.2 _ holds.1 ih
  exact deep _ reached

/-! ### Bound names are local -/

theorem isGlobal_cons_eq_false {names : List String} (member : name ∈ names) (isFunction : Bool)
    (scopes : List Scope) : Scope.isGlobal (⟨isFunction, names⟩ :: scopes) name = false := by
  simp [Scope.isGlobal, member]

/-- A name that a node binds is local inside the node. -/
theorem Node.Binds.isLocal {n : Node} (binds : n.Binds name) (a : Surroundings) :
    Scope.isGlobal (n.inside a).scopes name = false := by
  unfold Node.Binds at binds
  split at binds
  next ownName span isArrow isAsync isGenerator params body =>
    refine isGlobal_cons_eq_false ?_ _ _
    rcases binds with isParam | rfl | ⟨ss, rfl, declared⟩
    · exact List.mem_append_left _ (List.mem_append_left _ (mem_namesOf_params.mpr isParam))
    · exact List.mem_append_right _ (List.mem_singleton_self name)
    · exact List.mem_append_left _ (List.mem_append_right _ declared.mem_declaredNamesOf)
  next => exact isGlobal_cons_eq_false binds.mem_declaredNamesOf _ _
  next => exact isGlobal_cons_eq_false (mem_lexicalNames.mpr binds) _ _
  next p _ _ =>
    exact isGlobal_cons_eq_false (mem_blockNames.mpr ⟨binds.1, p.mem_names.mpr binds.2⟩) _ _
  next =>
    refine isGlobal_cons_eq_false (mem_blockNames.mpr ⟨binds.1, ?_⟩) _ _
    exact mem_namesOf_declarators.mpr binds.2
  next => exact isGlobal_cons_eq_false (mem_lexicalNames.mpr binds) _ _
  next => exact isGlobal_cons_eq_false (mem_branch_lexicalNames.mpr binds) _ _
  next =>
    refine isGlobal_cons_eq_false (List.mem_append.mpr ?_) _ _
    exact binds.imp (Pattern.mem_namesOfRest _).mpr mem_lexicalNames.mpr
  next => exact binds.elim

/-- A node that binds names is walked as a whole, and is no expression. -/
theorem Node.Binds.isName {n : Node} (binds : n.Binds name) : n.isName = false := by
  cases n with
  | expr | pattern => exact binds.elim
  | _ => rfl

end
end NameAudit
