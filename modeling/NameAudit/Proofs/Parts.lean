import NameAudit.Proofs.Sites
import Mathlib.Logic.Relation

/-!
The parts of a syntax tree, with the surroundings of each. `Node.parts` lists the direct parts of a
node and is not recursive; what stands anywhere in a tree is reached from part to part (`Holds`). The
parts of a node are smaller than the node, so what follows for a node from its parts holds of all
nodes (`Node.induction`). A node that is only a name is never walked into.
-/
namespace NameAudit

/-- A part of a tree that is walked at once. -/
inductive Node where
  | expr (e : Expr)
  | pattern (p : Pattern)
  /-- A function, which can have a name of its own. -/
  | func (ownName : Option String) (f : Func)
  | staticBlock (body : List Stmt)
  /-- Statements that run one after the other, after their functions are declared. -/
  | stmts (ss : List Stmt)
  | stmt (s : Stmt)
  | block (b : Block)
  | branches (bs : List Branch)
  | handler (h : Handler)

/-- A node with what is around it. -/
abbrev Located := Surroundings × Node

/-! ### Parts of what a node is made of -/

def Expr.optionalParts (a : Surroundings) (e : Option Expr) : List Located :=
  e.toList.map fun e => (a, .expr e)

def Pattern.optionalParts (a : Surroundings) (p : Option Pattern) : List Located :=
  p.toList.map fun p => (a, .pattern p)

def Key.parts (a : Surroundings) : Key → List Located
  | .direct _ | .hidden _ => []
  | .computed e => [(a, .expr e)]

def Element.parts (a : Surroundings) : Element → List Located
  | .hole => []
  | .item e | .spread e => [(a, .expr e)]

def Arg.parts (a : Surroundings) : Arg → List Located
  | .mk _ _ value => [(a, .expr value)]

def PropertyValue.parts (a : Surroundings) : PropertyValue → List Located
  | .getter f | .setter f | .method f => [(a, .func none f)]
  | .value e => Expr.optionalParts a e

/-- The parts of the value of a member of the instances of a class. -/
def PropertyValue.instanceParts (a : Surroundings) : PropertyValue → List Located
  | .getter f | .setter f | .method f => [(a, .func none f)]
  | .value e => Expr.optionalParts (a.inFunction []) e

def Member.parts (a : Surroundings) : Member → List Located
  | .property _ key value => key.parts a ++ value.parts a
  | .shorthand _ name nameSpan => [(a, .expr (.ident nameSpan name))]
  | .spread _ e => [(a, .expr e)]

def ClassMember.parts (a : Surroundings) : ClassMember → List Located
  | .property _ true key value => key.parts a ++ value.parts a
  | .property _ false key value => key.parts a ++ value.instanceParts a
  | .staticBlock _ body => [(a, .staticBlock body)]

def PatternElement.parts (a : Surroundings) : PatternElement → List Located
  | .hole => []
  | .item target default => (a, .pattern target) :: Expr.optionalParts a default

def PatternProperty.parts (a : Surroundings) : PatternProperty → List Located
  | .mk _ key target default => key.parts a ++ (a, .pattern target) :: Expr.optionalParts a default

def Destructuring.parts (a : Surroundings) : Destructuring → List Located
  | .array _ elements rest => elements.flatMap (·.parts a) ++ Pattern.optionalParts a rest
  | .object _ properties rest => properties.flatMap (·.parts a) ++ Pattern.optionalParts a rest

def Param.parts (a : Surroundings) : Param → List Located
  | .mk _ _ p default => (a, .pattern p) :: Expr.optionalParts a default

def Body.parts (a : Surroundings) : Body → List Located
  | .block ss => [(a, .stmts ss)]
  | .expr e => [(a, .expr e)]

def Declarator.parts (a : Surroundings) : Declarator → List Located
  | .mk p value => (a, .pattern p) :: Expr.optionalParts a value

def ForInit.parts (a : Surroundings) : ForInit → List Located
  | .nothing => []
  | .expr e => [(a, .expr e)]
  | .vars _ _ ds => ds.flatMap (·.parts a)

def ForHead.parts (a : Surroundings) : ForHead → List Located
  | .target e => [(a, .expr e)]
  | .declares _ p => [(a, .pattern p)]

def Branch.parts (a : Surroundings) : Branch → List Located
  | .mk _ test body => Expr.optionalParts a test ++ [(a, .stmts body)]

/-! ### Parts of a node -/

def Expr.parts (a : Surroundings) : Expr → List Located
  | .ident _ _ | .literal _ _ | .thisRef _ | .superRef _ | .newTarget _ => []
  | .member _ _ owner _ => [(a, .expr owner)]
  | .index _ _ owner key => [(a, .expr owner), (a, .expr key)]
  | .call _ _ callee args => (a, .expr callee) :: args.flatMap (·.parts a)
  | .construct _ callee args => (a, .expr callee) :: args.flatMap (·.parts a)
  | .unary _ _ operand => [(a, .expr operand)]
  | .step _ _ operand => [(a, .expr operand)]
  | .yield _ _ argument => Expr.optionalParts a argument
  | .assign _ _ target value => [(a, .expr target), (a, .expr value)]
  | .binary _ _ left right => [(a, .expr left), (a, .expr right)]
  | .comma _ left right => [(a, .expr left), (a, .expr right)]
  | .conditional _ test consequent alternate =>
    [(a, .expr test), (a, .expr consequent), (a, .expr alternate)]
  | .func _ name f => [(a, .func name f)]
  | .classExpr _ name base members =>
    Expr.optionalParts a base ++ members.flatMap (·.parts (a.inBlock name.toList))
  | .array _ elements => elements.flatMap (·.parts a)
  | .object _ members => members.flatMap (·.parts a)
  | .template _ tag substitutions =>
    Expr.optionalParts a tag ++ substitutions.map fun e => (a, .expr e)
  | .destructuring d => d.parts a

def Pattern.parts (a : Surroundings) : Pattern → List Located
  | .ident _ _ => []
  | .destructuring d => d.parts a
  | .target e => [(a, .expr e)]

/-- What is around the parts of a form of statement that opens a scope for all of them; for the other
    forms, what is around the statement. -/
def StmtForm.inside (a : Surroundings) : StmtForm → Surroundings
  | .block ss => a.inBlock (Stmt.lexicalNames ss)
  | .forEach _ _ head _ _ => a.inBlock head.blockNames
  | .forLoop init _ _ _ => a.inBlock init.blockNames
  | _ => a

/-- What is around the parts of a node that opens a scope for all of them; for the other nodes, what is
    around the node. -/
def Node.inside (a : Surroundings) : Node → Surroundings
  | .func ownName (.mk _ _ _ _ params body) =>
    a.inFunction (Param.namesOf params ++ body.declaredNames ++ ownName.toList)
  | .staticBlock ss => a.inFunction (Stmt.declaredNamesOf ss)
  | .stmt (.mk _ _ form) => form.inside a
  | .block (.mk _ ss) => a.inBlock (Stmt.lexicalNames ss)
  | .branches bs => a.inBlock (Branch.lexicalNames bs)
  | .handler (.mk _ param ss) => a.inBlock (Pattern.namesOfRest param ++ Stmt.lexicalNames ss)
  | .expr _ | .pattern _ | .stmts _ => a

/-- The parts of a form of statement, given what is inside it. -/
def StmtForm.parts (a : Surroundings) : StmtForm → List Located
  | .block ss => [(a, .stmts ss)]
  | .classDecl _ _ base members =>
    Expr.optionalParts a base ++ members.flatMap (·.parts (a.inBlock []))
  | .doLoop body condition => [(a, .stmt body), (a, .expr condition)]
  | .expr e => [(a, .expr e)]
  | .forEach _ _ head subject body =>
    (a, .expr subject) :: (head.parts a ++ [(a, .stmt body)])
  | .forLoop init condition update body =>
    init.parts a ++ (Expr.optionalParts a condition ++
      (a, .stmt body) :: Expr.optionalParts a update)
  | .funcDecl _ _ f => [(a, .func none f)]
  | .conditional test consequent alternate =>
    (a, .expr test) :: (a, .stmt consequent) :: alternate.toList.map fun s => (a, .stmt s)
  | .labelled _ body => [(a, .stmt body)]
  | .returns value => Expr.optionalParts a value
  | .switch subject branches => [(a, .expr subject), (a, .branches branches)]
  | .throws value => [(a, .expr value)]
  | .attempt body handler finalizer =>
    (a, .block body) :: (handler.toList.map (fun h => (a, .handler h)) ++
      finalizer.toList.map fun b => (a, .block b))
  | .vars _ ds => ds.flatMap (·.parts a)
  | .whileLoop condition body => [(a, .expr condition), (a, .stmt body)]
  | .scoped owner body => [(a, .expr owner), (a, .stmt body)]
  | .breakTo _ | .continueTo _ | .debugger | .empty => []

/-- The parts of a node, given what is inside it. -/
def Node.partsInside (a : Surroundings) : Node → List Located
  | .expr e => e.parts a
  | .pattern p => p.parts a
  | .func _ (.mk _ _ _ _ params body) => params.flatMap (·.parts a) ++ body.parts a
  | .staticBlock ss => [(a, .stmts ss)]
  | .stmts ss => ss.map fun s => (a, .stmt s)
  | .stmt (.mk _ _ form) => form.parts a
  | .block (.mk _ ss) => [(a, .stmts ss)]
  | .branches bs => bs.flatMap (·.parts a)
  | .handler (.mk _ param ss) => Pattern.optionalParts a param ++ [(a, .stmts ss)]

/-- The direct parts of a node. -/
def Node.parts (a : Surroundings) (n : Node) : List Located := n.partsInside (n.inside a)

/-- A node has another as a direct part. -/
def Holds (whole part : Located) : Prop := part ∈ whole.2.parts whole.1

/-- A node that is only a name: an occurrence, or the identifier that a pattern binds. -/
def Node.isName : Node → Bool
  | .expr e => e.occurrence?.isSome
  | .pattern (.ident _ _) => true
  | _ => false

/-- Functions and static blocks keep what they declare to themselves. -/
def Node.isFunction : Node → Bool
  | .func _ _ | .staticBlock _ => true
  | _ => false

/-- The parts of a name are names. -/
theorem Holds.isName {whole part : Located} (holds : Holds whole part)
    (name : whole.2.isName = true) : part.2.isName = true := by
  obtain ⟨a, n⟩ := whole
  cases n with
  | expr e =>
    cases e with
    | ident span name => cases holds
    | member span isOptional owner name' =>
      obtain rfl : part = (a, .expr owner) := List.mem_singleton.mp holds
      change (Expr.member span isOptional owner name').occurrence?.isSome = true at name
      rw [Expr.occurrence?] at name
      split at name
      · cases name
      · rwa [Option.isSome_map] at name
    | _ => cases name
  | pattern p =>
    cases p with
    | ident span name => cases holds
    | _ => cases name
  | _ => cases name

/-! ### What holds of all parts -/

/-- All nodes of a list of parts have a property. -/
def AllParts (P : Node → Prop) (parts : List Located) : Prop := ∀ x ∈ parts, P x.2

namespace AllParts

variable {P : Node → Prop} {a : Surroundings} {n : Node} {parts others : List Located}

theorem nil : AllParts P [] := fun _ member => nomatch member

theorem cons (first : P n) (rest : AllParts P parts) : AllParts P ((a, n) :: parts) := by
  intro x member
  rcases List.mem_cons.mp member with rfl | later
  · exact first
  · exact rest x later

theorem single (holds : P n) : AllParts P [(a, n)] := cons holds nil

theorem append (first : AllParts P parts) (second : AllParts P others) :
    AllParts P (parts ++ others) := by
  intro x member
  rcases List.mem_append.mp member with before | after
  · exact first x before
  · exact second x after

theorem flatMap {α : Type} {xs : List α} {partsOf : α → List Located}
    (each : ∀ x ∈ xs, AllParts P (partsOf x)) : AllParts P (xs.flatMap partsOf) := by
  intro y member
  obtain ⟨x, here, part⟩ := List.mem_flatMap.mp member
  exact each x here y part

end AllParts

/-! ### Sizes -/

/-- The size of a node. A static block counts for more than its statements. -/
noncomputable def Node.size : Node → Nat
  | .expr e => sizeOf e
  | .pattern p => sizeOf p
  | .func _ f => sizeOf f
  | .staticBlock ss => sizeOf ss + 1
  | .stmts ss => sizeOf ss
  | .stmt s => sizeOf s
  | .block b => sizeOf b
  | .branches bs => sizeOf bs
  | .handler h => sizeOf h

/-- All parts of a list are smaller than something. -/
abbrev AllBelow (size : Nat) (parts : List Located) : Prop := AllParts (·.size < size) parts

theorem AllParts.mono {size larger : Nat} {parts : List Located} (below : AllBelow size parts)
    (le : size ≤ larger) : AllBelow larger parts :=
  fun x member => Nat.lt_of_lt_of_le (below x member) le

/-- The parts of the elements of a list are smaller than the list. -/
theorem AllParts.ofList {α : Type} [SizeOf α] {xs : List α} {partsOf : α → List Located}
    (each : ∀ x, AllBelow (sizeOf x) (partsOf x)) : AllBelow (sizeOf xs) (xs.flatMap partsOf) :=
  AllParts.flatMap fun x here => (each x).mono (Nat.le_of_lt (List.sizeOf_lt_of_mem here))

section
variable (a : Surroundings)

theorem Expr.optionalParts_below (e : Option Expr) :
    AllBelow (sizeOf e) (Expr.optionalParts a e) := by
  cases e with
  | none => exact .nil
  | some e => exact .single (by simp +arith [Node.size])

theorem Pattern.optionalParts_below (p : Option Pattern) :
    AllBelow (sizeOf p) (Pattern.optionalParts a p) := by
  cases p with
  | none => exact .nil
  | some p => exact .single (by simp +arith [Node.size])

theorem Key.parts_below (key : Key) : AllBelow (sizeOf key) (key.parts a) := by
  cases key with
  | computed e => exact .single (by simp +arith [Node.size])
  | _ => exact .nil

theorem Element.parts_below (e : Element) : AllBelow (sizeOf e) (e.parts a) := by
  cases e with
  | hole => exact .nil
  | _ => exact .single (by simp +arith [Node.size])

theorem Arg.parts_below (arg : Arg) : AllBelow (sizeOf arg) (arg.parts a) := by
  obtain ⟨span, isSpread, value⟩ := arg
  exact .single (by simp +arith [Node.size])

theorem PropertyValue.parts_below (value : PropertyValue) :
    AllBelow (sizeOf value) (value.parts a) := by
  cases value with
  | value e => exact (Expr.optionalParts_below a e).mono (by simp +arith)
  | _ => exact .single (by simp +arith [Node.size])

theorem PropertyValue.instanceParts_below (value : PropertyValue) :
    AllBelow (sizeOf value) (value.instanceParts a) := by
  cases value with
  | value e => exact (Expr.optionalParts_below _ e).mono (by simp +arith)
  | _ => exact .single (by simp +arith [Node.size])

theorem Member.parts_below (m : Member) : AllBelow (sizeOf m) (m.parts a) := by
  cases m with
  | property span key value =>
    exact ((key.parts_below a).mono (by simp +arith)).append ((value.parts_below a).mono (by simp +arith))
  | shorthand span name nameSpan =>
    obtain ⟨start, stop⟩ := span
    exact .single (by simp +arith [Node.size])
  | spread span e => exact .single (by simp +arith [Node.size])

theorem ClassMember.parts_below (m : ClassMember) : AllBelow (sizeOf m) (m.parts a) := by
  cases m with
  | property span isStatic key value =>
    have own : AllBelow (sizeOf (property span isStatic key value)) (key.parts a) :=
      (key.parts_below a).mono (by simp +arith)
    cases isStatic with
    | true => exact own.append ((value.parts_below a).mono (by simp +arith))
    | false => exact own.append ((value.instanceParts_below a).mono (by simp +arith))
  | staticBlock span body =>
    obtain ⟨start, stop⟩ := span
    exact .single (by simp +arith [Node.size])

theorem PatternElement.parts_below (e : PatternElement) : AllBelow (sizeOf e) (e.parts a) := by
  cases e with
  | hole => exact .nil
  | item target default =>
    exact .cons (by simp +arith [Node.size]) ((Expr.optionalParts_below a default).mono (by simp +arith))

theorem PatternProperty.parts_below (p : PatternProperty) : AllBelow (sizeOf p) (p.parts a) := by
  obtain ⟨span, key, target, default⟩ := p
  refine ((key.parts_below a).mono (by simp +arith)).append (.cons (by simp +arith [Node.size]) ?_)
  exact (Expr.optionalParts_below a default).mono (by simp +arith)

theorem Destructuring.parts_below (d : Destructuring) : AllBelow (sizeOf d) (d.parts a) := by
  cases d with
  | array span elements rest =>
    exact ((AllParts.ofList (PatternElement.parts_below a)).mono (by simp +arith)).append
      ((Pattern.optionalParts_below a rest).mono (by simp +arith))
  | object span properties rest =>
    exact ((AllParts.ofList (PatternProperty.parts_below a)).mono (by simp +arith)).append
      ((Pattern.optionalParts_below a rest).mono (by simp +arith))

theorem Param.parts_below (p : Param) : AllBelow (sizeOf p) (p.parts a) := by
  obtain ⟨span, isRest, pattern, default⟩ := p
  exact .cons (by simp +arith [Node.size])
    ((Expr.optionalParts_below a default).mono (by simp +arith))

theorem Body.parts_below (body : Body) : AllBelow (sizeOf body) (body.parts a) := by
  cases body <;> exact .single (by simp +arith [Node.size])

theorem Declarator.parts_below (d : Declarator) : AllBelow (sizeOf d) (d.parts a) := by
  obtain ⟨p, value⟩ := d
  exact .cons (by simp +arith [Node.size])
    ((Expr.optionalParts_below a value).mono (by simp +arith))

theorem ForInit.parts_below (init : ForInit) : AllBelow (sizeOf init) (init.parts a) := by
  cases init with
  | nothing => exact .nil
  | expr e => exact .single (by simp +arith [Node.size])
  | vars span mode ds => exact (AllParts.ofList (Declarator.parts_below a)).mono (by simp +arith)

theorem ForHead.parts_below (head : ForHead) : AllBelow (sizeOf head) (head.parts a) := by
  cases head <;> exact .single (by simp +arith [Node.size])

theorem Branch.parts_below (b : Branch) : AllBelow (sizeOf b) (b.parts a) := by
  obtain ⟨span, test, body⟩ := b
  exact ((Expr.optionalParts_below a test).mono (by simp +arith)).append
    (.single (by simp +arith [Node.size]))

theorem Expr.parts_below (e : Expr) : AllBelow (sizeOf e) (e.parts a) := by
  cases e with
  | ident | literal | thisRef | superRef | newTarget => exact .nil
  | member | unary | step | func => exact .single (by simp +arith [Node.size])
  | index | assign | binary | comma =>
    exact .cons (by simp +arith [Node.size]) (.single (by simp +arith [Node.size]))
  | conditional =>
    exact .cons (by simp +arith [Node.size])
      (.cons (by simp +arith [Node.size]) (.single (by simp +arith [Node.size])))
  | call span isOptional callee args =>
    exact .cons (by simp +arith [Node.size])
      ((AllParts.ofList (Arg.parts_below a)).mono (by simp +arith))
  | construct span callee args =>
    exact .cons (by simp +arith [Node.size])
      ((AllParts.ofList (Arg.parts_below a)).mono (by simp +arith))
  | yield span isDelegate argument =>
    exact (Expr.optionalParts_below a argument).mono (by simp +arith)
  | classExpr span name base members =>
    exact ((Expr.optionalParts_below a base).mono (by simp +arith)).append
      ((AllParts.ofList (ClassMember.parts_below _)).mono (by simp +arith))
  | array span elements => exact (AllParts.ofList (Element.parts_below a)).mono (by simp +arith)
  | object span members => exact (AllParts.ofList (Member.parts_below a)).mono (by simp +arith)
  | template span tag substitutions =>
    refine ((Expr.optionalParts_below a tag).mono (by simp +arith)).append fun x member => ?_
    obtain ⟨e, here, rfl⟩ := List.mem_map.mp member
    have smaller := List.sizeOf_lt_of_mem here
    simp only [Node.size, template.sizeOf_spec]
    omega
  | destructuring d => exact (d.parts_below a).mono (by simp +arith)

theorem Pattern.parts_below (p : Pattern) : AllBelow (sizeOf p) (p.parts a) := by
  cases p with
  | ident => exact .nil
  | destructuring d => exact (d.parts_below a).mono (by simp +arith)
  | target e => exact .single (by simp +arith [Node.size])

theorem StmtForm.parts_below (form : StmtForm) : AllBelow (sizeOf form) (form.parts a) := by
  cases form with
  | breakTo | continueTo | debugger | empty => exact .nil
  | block | expr | funcDecl | labelled | throws => exact .single (by simp +arith [Node.size])
  | doLoop | switch | whileLoop | «scoped» =>
    exact .cons (by simp +arith [Node.size]) (.single (by simp +arith [Node.size]))
  | classDecl name nameSpan base members =>
    exact ((Expr.optionalParts_below a base).mono (by simp +arith)).append
      ((AllParts.ofList (ClassMember.parts_below _)).mono (by simp +arith))
  | forEach isOf isAwait head subject body =>
    exact .cons (by simp +arith [Node.size])
      (((head.parts_below _).mono (by simp +arith)).append (.single (by simp +arith [Node.size])))
  | forLoop init condition update body =>
    exact ((init.parts_below _).mono (by simp +arith)).append <|
      ((Expr.optionalParts_below _ condition).mono (by simp +arith)).append <|
        .cons (by simp +arith [Node.size])
          ((Expr.optionalParts_below _ update).mono (by simp +arith))
  | conditional test consequent alternate =>
    refine .cons (by simp +arith [Node.size]) (.cons (by simp +arith [Node.size]) ?_)
    cases alternate with
    | none => exact .nil
    | some s => exact .single (by simp +arith [Node.size])
  | returns value => exact (Expr.optionalParts_below a value).mono (by simp +arith)
  | attempt body handler finalizer =>
    refine .cons (by simp +arith [Node.size]) (.append ?_ ?_)
    · cases handler with
      | none => exact .nil
      | some h => exact .single (by simp +arith [Node.size])
    · cases finalizer with
      | none => exact .nil
      | some b => exact .single (by simp +arith [Node.size])
  | vars mode ds => exact (AllParts.ofList (Declarator.parts_below a)).mono (by simp +arith)

/-- The parts of a node are smaller than the node. -/
theorem Node.partsInside_below (n : Node) : AllBelow n.size (n.partsInside a) := by
  cases n with
  | expr e => exact e.parts_below a
  | pattern p => exact p.parts_below a
  | func ownName f =>
    obtain ⟨span, isArrow, isAsync, isGenerator, params, body⟩ := f
    exact ((AllParts.ofList (Param.parts_below a)).mono (by simp +arith [Node.size])).append
      ((body.parts_below a).mono (by simp +arith [Node.size]))
  | staticBlock ss => exact .single (Nat.lt_succ_self _)
  | stmts ss =>
    intro x member
    obtain ⟨s, here, rfl⟩ := List.mem_map.mp member
    exact List.sizeOf_lt_of_mem here
  | stmt s =>
    obtain ⟨span, doc, form⟩ := s
    exact (form.parts_below a).mono (by simp +arith [Node.size])
  | block b =>
    obtain ⟨span, ss⟩ := b
    exact .single (by simp +arith [Node.size])
  | branches bs => exact AllParts.ofList (Branch.parts_below _)
  | handler h =>
    obtain ⟨span, param, ss⟩ := h
    exact ((Pattern.optionalParts_below _ param).mono (by simp +arith [Node.size])).append
      (.single (by simp +arith [Node.size]))

end

/-- What holds of a node if it holds of its parts holds of every node. -/
theorem Located.induction {P : Located → Prop}
    (step : ∀ whole, (∀ part, Holds whole part → P part) → P whole) (x : Located) : P x :=
  step x fun part holds =>
    have : part.2.size < x.2.size := x.2.partsInside_below _ part holds
    Located.induction step part
termination_by x.2.size

end NameAudit
