import NameAudit.Parser.Statement
import NameAudit.Proofs.Parts
import NameAudit.Proofs.Rereading

/-!
Laws of the trees that the parser builds. A law is a property of single nodes that holds of each node
where it is built (`Law`), given how: a target was read again from an expression, a declared pattern has
no member in it, the parameters of a function were listed or read again from what stood before an arrow.
A node is `Whole` when a law holds all over it, and what is read again from a whole expression is whole.
-/
namespace NameAudit

open Relation (ReflTransGen)

/-! ### Properties of all nodes of a tree -/

instance : Inhabited Surroundings := ⟨⟨default, default, []⟩⟩

namespace Node

/-- A node has another as a part. -/
def Has (whole part : Node) : Prop := ∃ a b, Holds (a, whole) (b, part)

/-- A property of a node and of everything in it. -/
def All (P : Node → Prop) (n : Node) : Prop := ∀ m, ReflTransGen Has n m → P m

/-- A pattern that stands where an expression is expected, as only the target of an assignment does. -/
def isBare : Node → Bool
  | .expr (.destructuring _) => true
  | _ => false

/-- A property of a node that is not bare and of everything in it. -/
def Whole (P : Node → Prop) (n : Node) : Prop := n.All P ∧ n.isBare = false

section
variable {P : Node → Prop} {n m : Node}

theorem All.here (all : n.All P) : P n := all n .refl

theorem All.part {a b : Surroundings} (all : n.All P) (part : (b, m) ∈ n.parts a) : m.All P :=
  fun x deep => all x (.head ⟨a, b, part⟩ deep)

theorem All.intro (here : P n) (parts : ∀ a, AllParts (All P) (n.partsInside a)) : n.All P := by
  intro x deep
  rcases ReflTransGen.cases_head deep with rfl | ⟨m, ⟨a, b, part⟩, deeper⟩
  · exact here
  · exact parts _ (b, m) part x deeper

theorem allParts_of_whole {parts : List Located} (whole : AllParts (Whole P) parts) :
    AllParts (All P) parts :=
  fun x member => (whole x member).1

end
end Node

/-! ### Members in patterns -/

/-- Whether a target is a destructuring that has a default. -/
def Pattern.isDefaultedDestructuring (default : Option Expr) : Pattern → Bool
  | .destructuring _ => default.isSome
  | _ => false

mutual

/-- The members that are targets in a pattern, at any depth; with `all` unset, those outside of
destructurings that have a default. -/
def Pattern.targets (all : Bool) : Pattern → List Expr
  | .ident _ _ => []
  | .destructuring d => d.targets all
  | .target e => [e]

/-- The members that are targets in a destructuring. -/
def Destructuring.targets (all : Bool) : Destructuring → List Expr
  | .array _ elements rest => PatternElement.targetsOf all elements ++ Pattern.targetsOfRest all rest
  | .object _ properties rest =>
    PatternProperty.targetsOf all properties ++ Pattern.targetsOfRest all rest

/-- The members that are targets in some elements. -/
def PatternElement.targetsOf (all : Bool) : List PatternElement → List Expr
  | [] => []
  | .hole :: es => PatternElement.targetsOf all es
  | .item target default :: es =>
    (if all || !target.isDefaultedDestructuring default then target.targets all else []) ++
      PatternElement.targetsOf all es

/-- The members that are targets in some properties. -/
def PatternProperty.targetsOf (all : Bool) : List PatternProperty → List Expr
  | [] => []
  | .mk _ _ target default :: ps =>
    (if all || !target.isDefaultedDestructuring default then target.targets all else []) ++
      PatternProperty.targetsOf all ps

/-- The members that are targets in the rest of a pattern. -/
def Pattern.targetsOfRest (all : Bool) : Option Pattern → List Expr
  | none => []
  | some p => p.targets all

end

/-- The members that are targets in a parameter. -/
def Param.targets (all : Bool) : Param → List Expr
  | .mk _ _ p default =>
    if all || !p.isDefaultedDestructuring default then p.targets all else []

/-- A pattern that binds names only. -/
def Pattern.Declares (p : Pattern) : Prop := p.targets true = []

/-- The patterns of declarators bind names only. -/
def Declarator.Declares : Declarator → Prop
  | .mk p _ => p.Declares

section
variable {all : Bool} {p : Pattern} {default : Option Expr}

theorem PatternElement.targetsOf_append (es fs : List PatternElement) :
    targetsOf all (es ++ fs) = targetsOf all es ++ targetsOf all fs := by
  induction es with
  | nil => rfl
  | cons e es ih =>
    cases e with
    | hole => exact ih
    | item target default => simp only [List.cons_append, targetsOf, ih, List.append_assoc]

theorem PatternProperty.targetsOf_append (ps qs : List PatternProperty) :
    targetsOf all (ps ++ qs) = targetsOf all ps ++ targetsOf all qs := by
  induction ps with
  | nil => rfl
  | cons p ps ih =>
    obtain ⟨span, key, target, default⟩ := p
    simp only [List.cons_append, targetsOf, ih, List.append_assoc]

/-- An element whose target binds names only adds no member. -/
theorem PatternElement.targetsOf_concat (declares : p.Declares) (es : List PatternElement)
    (default : Option Expr) : targetsOf true (es ++ [.item p default]) = targetsOf true es := by
  rw [targetsOf_append, targetsOf, (declares : p.targets true = [])]
  exact List.append_nil _

theorem PatternProperty.targetsOf_concat (declares : p.Declares) (ps : List PatternProperty)
    (span : Span) (key : Key) (default : Option Expr) :
    targetsOf true (ps ++ [.mk span key p default]) = targetsOf true ps := by
  rw [targetsOf_append, targetsOf, (declares : p.targets true = [])]
  exact List.append_nil _

theorem Param.targets_ofParts (declares : p.Declares) (isRest : Bool) (default : Option Expr) :
    (Param.ofParts p isRest default).targets true = [] := by
  cases default <;> exact declares

end

/-! ### Parameters -/

/-- A parameter that takes the remaining arguments. -/
def Param.isRest : Param → Bool
  | .mk _ isRest _ _ => isRest

theorem Param.isRest_ofParts (p : Pattern) (isRest : Bool) (default : Option Expr) :
    (Param.ofParts p isRest default).isRest = isRest := by
  cases default <;> rfl

/-- The value of a parameter without an argument. -/
def Param.default : Param → Option Expr
  | .mk _ _ _ default => default

/-- Parameters as a function lists them. -/
structure Listed (params : List Param) : Prop where
  declares : ∀ p ∈ params, p.targets true = []
  /-- Only the last one takes the remaining arguments. -/
  last : ∀ p ∈ params.dropLast, p.isRest = false
  plain : ∀ p ∈ params, p.isRest = true → p.default = none

/-- Parameters that were read again from what stands before an arrow; only an asynchronous function has
those that were the arguments of a call. -/
inductive ReadAgain (P : Node → Prop) : Bool → List Param → Prop
  | named (isAsync : Bool) (name : String) (span : Span) :
    ReadAgain P isAsync [Parser.namedParam name span]
  | parenthesised (exprs : List Expr) (params : List Param) (rest : Option Pattern)
    (whole : ∀ e ∈ exprs, (Node.expr e).Whole P) (read : Parser.exprsToParams exprs = .ok params)
    (declares : ∀ p, rest = some p → p.Declares) :
    ReadAgain P false (params ++ rest.toList.map fun p => Param.ofParts p true none)
  | called (args : List Arg) (params : List Param)
    (whole : ∀ a, AllParts (Node.Whole P) (args.flatMap (·.parts a)))
    (read : Parser.argsToParams args = .ok params) : ReadAgain P true params

/-! ### Laws -/

/-- Whether laws leave a form of statement alone. -/
def StmtForm.isPlain : StmtForm → Bool
  | .vars _ _ | .forLoop _ _ _ _ | .forEach _ _ _ _ _ => false
  | _ => true

/-- Whether laws leave a node alone, up to bare parts. -/
def Node.isPlain : Node → Bool
  | .expr (.assign _ _ _ _) | .expr (.step _ _ _) => false
  | .pattern _ | .func _ _ | .handler _ => false
  | .stmt (.mk _ _ form) => form.isPlain
  | _ => true

/-- What arrays and objects consist of is not bare. -/
def Node.Formed : Node → Prop
  | .expr (.array span elements) =>
    ∀ a, ∀ x ∈ (Expr.array span elements).parts a, x.2.isBare = false
  | .expr (.object span members) =>
    ∀ a, ∀ x ∈ (Expr.object span members).parts a, x.2.isBare = false
  | _ => True

/-- The declarations that begin a loop of three parts bind names only. -/
def ForInit.Declares : ForInit → Prop
  | .nothing | .expr _ => True
  | .vars _ _ ds => ∀ d ∈ ds, d.Declares

/-- What a loop over keys or elements assigns was read again as a target, or binds names only. -/
def ForHead.Assigns : ForHead → Prop
  | .target e => ∃ left, Expr.toTarget true left = .ok e
  | .declares _ p => p.Declares

/-- A property that holds of every node that the parser builds. -/
structure Law (P : Node → Prop) : Prop where
  plain : ∀ n : Node, n.isPlain = true → n.Formed → P n
  assign : ∀ span op left target value, Expr.toTarget (op == .plain) left = .ok target →
    P (.expr (.assign span op target value))
  step : ∀ span op operand target, Expr.toTarget false operand = .ok target →
    P (.expr (.step span op target))
  /-- A pattern that was read again from an expression. -/
  converted : ∀ binding e p, Expr.toPattern binding e = .ok p → P (.pattern p)
  declared : ∀ p : Pattern, p.Declares → P (.pattern p)
  listed : ∀ name span isAsync isGenerator params body, Listed params →
    P (.func name (.mk span false isAsync isGenerator params body))
  arrow : ∀ span isAsync params body, ReadAgain P isAsync params →
    P (.func none (.mk span true isAsync false params body))
  vars : ∀ span doc mode ds, (∀ d ∈ ds, d.Declares) → P (.stmt (.mk span doc (.vars mode ds)))
  forLoop : ∀ span doc init condition update body, init.Declares →
    P (.stmt (.mk span doc (.forLoop init condition update body)))
  forEach : ∀ span doc isOf isAwait head subject body, head.Assigns →
    P (.stmt (.mk span doc (.forEach isOf isAwait head subject body)))
  handler : ∀ span param body, (∀ p, param = some p → p.Declares) → P (.handler (.mk span param body))

section
variable {P : Node → Prop} {n : Node}

/-- A plain node is whole when its parts are. -/
theorem Law.whole (law : Law P) (plain : n.isPlain = true) (bare : n.isBare = false)
    (parts : ∀ a, AllParts (Node.Whole P) (n.partsInside a)) : n.Whole P := by
  refine ⟨Node.All.intro (law.plain n plain ?_) fun a => Node.allParts_of_whole (parts a), bare⟩
  unfold Node.Formed
  split
  · exact fun a x member => (parts a x member).2
  · exact fun a x member => (parts a x member).2
  · trivial

/-- Statements one after the other are a whole node. -/
theorem Law.stmts (law : Law P) {body : List Stmt} (whole : ∀ s ∈ body, (Node.stmt s).Whole P) :
    (Node.stmts body).Whole P := by
  refine law.whole rfl rfl fun a x member => ?_
  obtain ⟨s, here, rfl⟩ := List.mem_map.mp member
  exact whole s here

/-! ### Reading again -/

section
variable {α : Type} {Q : Node → Prop} {x : α} {xs : List α} {partsOf : α → List Located}
  {others : List Located}

theorem AllParts.cons_append (first : AllParts Q (partsOf x))
    (rest : AllParts Q (xs.flatMap partsOf ++ others)) :
    AllParts Q ((x :: xs).flatMap partsOf ++ others) := by
  rw [List.flatMap_cons, List.append_assoc]
  exact first.append rest

theorem AllParts.concat (all : AllParts Q (xs.flatMap partsOf)) (last : AllParts Q (partsOf x)) :
    AllParts Q ((xs ++ [x]).flatMap partsOf) := by
  rw [List.flatMap_append, List.flatMap_singleton]
  exact all.append last

theorem AllParts.head (all : AllParts Q ((x :: xs).flatMap partsOf)) : AllParts Q (partsOf x) :=
  fun y member => all y (by rw [List.flatMap_cons]; exact List.mem_append_left _ member)

theorem AllParts.tail (all : AllParts Q ((x :: xs).flatMap partsOf)) :
    AllParts Q (xs.flatMap partsOf) :=
  fun y member => all y (by rw [List.flatMap_cons]; exact List.mem_append_right _ member)

theorem AllParts.left {more : List Located} (all : AllParts Q (others ++ more)) : AllParts Q others :=
  fun y member => all y (List.mem_append_left _ member)

theorem AllParts.right {more : List Located} (all : AllParts Q (others ++ more)) : AllParts Q more :=
  fun y member => all y (List.mem_append_right _ member)

theorem AllParts.first {n : Node} {a : Surroundings} (all : AllParts Q ((a, n) :: others)) : Q n :=
  all (a, n) List.mem_cons_self

theorem AllParts.later {n : Node} {a : Surroundings} (all : AllParts Q ((a, n) :: others)) :
    AllParts Q others :=
  fun y member => all y (List.mem_cons_of_mem _ member)

end

/-- The two sides of an assignment keep what holds all over it. -/
theorem Node.All.sides {span : Span} {op : AssignmentOperator} {target value : Expr}
    (all : (Node.expr (.assign span op target value)).All P) (a : Surroundings) :
    (Node.expr target).All P ∧ (Node.expr value).All P :=
  have parts : AllParts (Node.All P) ((Expr.assign span op target value).parts a) :=
    fun _ member => all.part (a := a) member
  ⟨parts.first, parts.later.first⟩

/-- What is read again keeps a property of all nodes in it. -/
def Rereading.Keeps (P : Node → Prop) : Rereading → Prop
  | .whole e p => (Node.expr e).All P → (Node.pattern p).All P
  | .elements es items rest => (∀ a, AllParts (Node.All P) (es.flatMap (·.parts a))) →
    ∀ a, AllParts (Node.All P) (items.flatMap (·.parts a) ++ Pattern.optionalParts a rest)
  | .members ms properties rest => (∀ a, AllParts (Node.All P) (ms.flatMap (·.parts a))) →
    ∀ a, AllParts (Node.All P) (properties.flatMap (·.parts a) ++ Pattern.optionalParts a rest)

theorem Law.rereading (law : Law P) {binding : Bool} {r : Rereading} (reads : ReadsAs binding r) : r.Keeps P := by
  have here : ∀ {e p}, ReadsAs binding (.whole e p) → P (.pattern p) := fun reads =>
    law.converted binding _ _ (Expr.toPattern_eq_ok_iff.mpr reads)
  induction reads with
  | ident => exact fun _ => .intro (here .ident) fun _ => .nil
  | destructuring => exact fun all => .intro (here .destructuring) fun a _ member => all.part (a := a) member
  | array parts ih =>
    exact fun all => .intro (here (.array parts)) (ih fun a _ member => all.part (a := a) member)
  | object parts ih =>
    exact fun all => .intro (here (.object parts)) (ih fun a _ member => all.part (a := a) member)
  | member free => exact fun all => .intro (here (.member free)) fun _ => .single all
  | index free => exact fun all => .intro (here (.index free)) fun _ => .single all
  | noElement => exact fun _ _ => .nil
  | hole _ others => exact fun all a => .cons_append .nil (others (fun a => (all a).tail) a)
  | defaultedItem _ _ first others =>
    intro all a
    obtain ⟨left, right⟩ := (all a).head.first.sides a
    exact .cons_append (.cons (first left) (.single right)) (others (fun a => (all a).tail) a)
  | item _ _ _ first others =>
    exact fun all a => .cons_append (.single (first (all a).head.first)) (others (fun a => (all a).tail) a)
  | spread _ last => exact fun all a => .single (last (all a).head.first)
  | noMember => exact fun _ _ => .nil
  | defaultedProperty _ _ first others =>
    intro all a
    obtain ⟨left, right⟩ := (all a).head.right.first.sides a
    exact .cons_append ((all a).head.left.append (.cons (first left) (.single right)))
      (others (fun a => (all a).tail) a)
  | property _ _ _ first others =>
    exact fun all a => .cons_append ((all a).head.left.append (.single (first (all a).head.right.first)))
      (others (fun a => (all a).tail) a)
  | shorthand _ others =>
    exact fun all a => .cons_append (.single (.intro (here .ident) fun _ => .nil)) (others (fun a => (all a).tail) a)
  | restMember _ last => exact fun all a => .single (last (all a).head.first)

/-- What is read again as a pattern keeps a law. -/
theorem Law.toPattern (law : Law P) {binding : Bool} (e : Expr) :
    ∀ p, e.toPattern binding = .ok p → (Node.expr e).All P → (Node.pattern p).All P :=
  fun _ read => law.rereading (Expr.toPattern_eq_ok_iff.mp read)

theorem Law.toDestructuring (law : Law P) {e target : Expr} (read : e.toDestructuring = .ok target)
    (all : (Node.expr e).All P) : (Node.expr target).All P := by
  obtain ⟨p, pattern, same⟩ := bind_eq_ok_iff.mp read
  have whole := law.toPattern e p pattern all
  split at same
  · cases same
    exact .intro (law.plain _ rfl trivial) fun a x member => whole.part (a := a) member
  · cases same

/-- What is read again as a target keeps a law. -/
theorem Law.toTarget (law : Law P) {takesApart : Bool} {e target : Expr}
    (read : e.toTarget takesApart = .ok target) (all : (Node.expr e).All P) :
    (Node.expr target).All P := by
  unfold Expr.toTarget at read
  split at read
  · split at read
    · exact law.toDestructuring read all
    · cases read
  · split at read
    · exact law.toDestructuring read all
    · cases read
  · cases read
    exact all
  · cases read
    exact all
  · cases read
    exact all
  · cases read

theorem Param.all_ofParts {p : Pattern} {isRest : Bool} {default : Option Expr}
    (pattern : (Node.pattern p).All P) (value : ∀ e, default = some e → (Node.expr e).All P)
    (a : Surroundings) : AllParts (Node.All P) ((Param.ofParts p isRest default).parts a) := by
  cases default with
  | none => exact .single pattern
  | some e => exact .cons pattern (.single (value e rfl))

/-- What is read again as a parameter keeps a law. -/
theorem Law.toParam (law : Law P) {isRest : Bool} {e : Expr} {param : Param}
    (read : e.toParam isRest = .ok param) (all : (Node.expr e).All P) (a : Surroundings) :
    AllParts (Node.All P) (param.parts a) := by
  unfold Expr.toParam at read
  split at read
  · obtain ⟨p, pattern, same⟩ := bind_eq_ok_iff.mp read
    cases same
    obtain ⟨left, right⟩ := all.sides a
    exact Param.all_ofParts (law.toPattern _ p pattern left) (by rintro _ ⟨⟩; exact right) a
  · obtain ⟨p, pattern, same⟩ := bind_eq_ok_iff.mp read
    cases same
    exact Param.all_ofParts (law.toPattern _ p pattern all) (by rintro _ ⟨⟩) a

theorem Law.exprsToParams (law : Law P) {exprs : List Expr} {params : List Param}
    (read : Parser.exprsToParams exprs = .ok params) (whole : ∀ e ∈ exprs, (Node.expr e).Whole P)
    (a : Surroundings) : AllParts (Node.All P) (params.flatMap (·.parts a)) := by
  induction exprs generalizing params with
  | nil =>
    cases read
    exact .nil
  | cons e es ih =>
    obtain ⟨p, first, read⟩ := bind_eq_ok_iff.mp read
    obtain ⟨ps, rest, same⟩ := bind_eq_ok_iff.mp read
    cases same
    rw [List.flatMap_cons]
    exact (law.toParam first (whole e List.mem_cons_self).1 a).append
      (ih rest fun e later => whole e (List.mem_cons_of_mem _ later))

theorem Law.argsToParams (law : Law P) {args : List Arg} {params : List Param}
    (read : Parser.argsToParams args = .ok params)
    (whole : ∀ a, AllParts (Node.Whole P) (args.flatMap (·.parts a)))
    (a : Surroundings) : AllParts (Node.All P) (params.flatMap (·.parts a)) := by
  induction args generalizing params with
  | nil =>
    cases read
    exact .nil
  | cons arg args ih =>
    obtain ⟨span, isSpread, value⟩ := arg
    obtain ⟨p, first, read⟩ := bind_eq_ok_iff.mp read
    obtain ⟨ps, rest, same⟩ := bind_eq_ok_iff.mp read
    cases same
    rw [List.flatMap_cons]
    exact (law.toParam first (whole a).head.first.1 a).append (ih rest fun a => (whole a).tail)

end
end NameAudit
