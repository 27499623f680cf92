import NameAudit.Tree
import NameAudit.Proofs.Cursors
import Mathlib.Logic.Relation

/-!
The regions of a text that a tree covers: everything in a tree that has a span of its own, with the regions
directly inside of it and the statements that it lists. A region is `Sound` when its span is one of the
text, holds the spans directly inside of it and has its statements one after the other. Regions that lie
between two offsets (`Region.Lies`) make up larger ones.
-/
namespace NameAudit

open Relation (ReflTransGen)
open Cursor (Boundary ofSource)

/-- A part of a tree with a span of its own. -/
inductive Region where
  | script (s : Script)
  | stmt (s : Stmt)
  | expr (e : Expr)
  | pattern (p : Pattern)
  | func (f : Func)
  | param (p : Param)
  | arg (a : Arg)
  | member (m : Member)
  | classMember (m : ClassMember)
  | property (p : PatternProperty)
  | branch (b : Branch)
  | handler (h : Handler)
  | block (b : Block)
  /-- The declarations that begin a loop. -/
  | declaration (span : Span) (ds : List Declarator)
  /-- A name that a declaration or a shorthand property holds. -/
  | name (span : Span)

/-! ### Spans -/

/-- The span of a parameter. -/
def Param.span : Param → Span
  | .mk span _ _ _ => span

/-- The span of a member of an object literal. -/
def Member.span : Member → Span
  | .property span _ _ | .shorthand span _ _ | .spread span _ => span

/-- The span of a member of a class. -/
def ClassMember.span : ClassMember → Span
  | .property span _ _ _ | .staticBlock span _ => span

/-- The span of a region. -/
def Region.span : Region → Span
  | .script s => s.span
  | .stmt s => s.span
  | .expr e => e.span
  | .pattern p => p.span
  | .func f => f.span
  | .param p => p.span
  | .arg (.mk span _ _) => span
  | .member m => m.span
  | .classMember m => m.span
  | .property (.mk span _ _ _) => span
  | .branch (.mk span _ _) => span
  | .handler (.mk span _ _) => span
  | .block (.mk span _) => span
  | .declaration span _ => span
  | .name span => span

/-! ### The regions directly inside -/

/-- The region of an expression that may be missing. -/
def Expr.optionalRegions (e : Option Expr) : List Region := e.toList.map .expr

/-- The region of a pattern that may be missing. -/
def Pattern.optionalRegions (p : Option Pattern) : List Region := p.toList.map .pattern

def Key.regions : Key → List Region
  | .computed e => [.expr e]
  | .direct _ | .hidden _ => []

def PropertyValue.regions : PropertyValue → List Region
  | .getter f | .setter f | .method f => [.func f]
  | .value e => Expr.optionalRegions e

def Element.regions : Element → List Region
  | .hole => []
  | .item e | .spread e => [.expr e]

def PatternElement.regions : PatternElement → List Region
  | .hole => []
  | .item target default => .pattern target :: Expr.optionalRegions default

def Declarator.regions : Declarator → List Region
  | .mk p value => .pattern p :: Expr.optionalRegions value

def Destructuring.regions : Destructuring → List Region
  | .array _ elements rest => elements.flatMap (·.regions) ++ Pattern.optionalRegions rest
  | .object _ properties rest => properties.map .property ++ Pattern.optionalRegions rest

def Body.regions : Body → List Region
  | .block body => body.map .stmt
  | .expr e => [.expr e]

def Member.regions : Member → List Region
  | .property _ key value => key.regions ++ value.regions
  | .shorthand _ _ nameSpan => [.name nameSpan]
  | .spread _ e => [.expr e]

def ClassMember.regions : ClassMember → List Region
  | .property _ _ key value => key.regions ++ value.regions
  | .staticBlock _ body => body.map .stmt

def ForInit.regions : ForInit → List Region
  | .nothing => []
  | .expr e => [.expr e]
  | .vars span _ ds => [.declaration span ds]

def ForHead.regions : ForHead → List Region
  | .target e => [.expr e]
  | .declares _ p => [.pattern p]

def Expr.regions : Expr → List Region
  | .ident _ _ | .literal _ _ | .thisRef _ | .superRef _ | .newTarget _ => []
  | .array _ elements => elements.flatMap (·.regions)
  | .object _ members => members.map .member
  | .func _ _ f => [.func f]
  | .classExpr _ _ base members => Expr.optionalRegions base ++ members.map .classMember
  | .template _ tag substitutions => Expr.optionalRegions tag ++ substitutions.map .expr
  | .member _ _ owner _ => [.expr owner]
  | .index _ _ owner key => [.expr owner, .expr key]
  | .call _ _ callee args | .construct _ callee args => .expr callee :: args.map .arg
  | .unary _ _ operand | .step _ _ operand => [.expr operand]
  | .binary _ _ left right | .assign _ _ left right | .comma _ left right => [.expr left, .expr right]
  | .conditional _ test consequent alternate => [.expr test, .expr consequent, .expr alternate]
  | .yield _ _ argument => Expr.optionalRegions argument
  | .destructuring d => d.regions

def Pattern.regions : Pattern → List Region
  | .ident _ _ => []
  | .destructuring d => d.regions
  | .target e => [.expr e]

def StmtForm.regions : StmtForm → List Region
  | .block body => body.map .stmt
  | .breakTo _ | .continueTo _ | .debugger | .empty => []
  | .classDecl _ nameSpan base members =>
    .name nameSpan :: (Expr.optionalRegions base ++ members.map .classMember)
  | .doLoop body condition => [.stmt body, .expr condition]
  | .expr e | .throws e => [.expr e]
  | .forEach _ _ head subject body => head.regions ++ [.expr subject, .stmt body]
  | .forLoop init condition update body =>
    init.regions ++ (Expr.optionalRegions condition ++ (Expr.optionalRegions update ++ [.stmt body]))
  | .funcDecl _ nameSpan f => [.name nameSpan, .func f]
  | .conditional test consequent alternate =>
    .expr test :: .stmt consequent :: alternate.toList.map .stmt
  | .labelled _ body => [.stmt body]
  | .returns value => Expr.optionalRegions value
  | .switch subject branches => .expr subject :: branches.map .branch
  | .attempt body handler finalizer =>
    .block body :: (handler.toList.map .handler ++ finalizer.toList.map .block)
  | .vars _ ds => ds.flatMap (·.regions)
  | .whileLoop e body | .scoped e body => [.expr e, .stmt body]

namespace Region

/-- The regions directly inside of a region. -/
def children : Region → List Region
  | .script s => s.body.map .stmt
  | .stmt (.mk _ _ form) => form.regions
  | .expr e => e.regions
  | .pattern p => p.regions
  | .func (.mk _ _ _ _ params body) => params.map .param ++ body.regions
  | .param (.mk _ _ p default) => .pattern p :: Expr.optionalRegions default
  | .arg (.mk _ _ value) => [.expr value]
  | .member m => m.regions
  | .classMember m => m.regions
  | .property (.mk _ key target default) =>
    key.regions ++ .pattern target :: Expr.optionalRegions default
  | .branch (.mk _ test body) => Expr.optionalRegions test ++ body.map .stmt
  | .handler (.mk _ caught body) => Pattern.optionalRegions caught ++ body.map .stmt
  | .block (.mk _ body) => body.map .stmt
  | .declaration _ ds => ds.flatMap (·.regions)
  | .name _ => []

/-- The list of statements that a region holds. -/
def statements : Region → List Stmt
  | .script s => s.body
  | .stmt (.mk _ _ (.block body)) => body
  | .func (.mk _ _ _ _ _ (.block body)) => body
  | .classMember (.staticBlock _ body) => body
  | .branch (.mk _ _ body) | .handler (.mk _ _ body) | .block (.mk _ body) => body
  | _ => []

/-- A region has another one directly inside of it. -/
def Has (x y : Region) : Prop := y ∈ x.children

/-- The span of a region is one of the text and holds the spans directly inside of it, which are not empty;
the statements that it lists stand one after the other. -/
structure Sound (source : List Char) (x : Region) : Prop where
  start_le_stop : x.span.start ≤ x.span.stop
  stop_le : x.span.stop ≤ Text.byteLength source
  starts : (ofSource source).Boundary x.span.start
  stops : (ofSource source).Boundary x.span.stop
  inside : ∀ y ∈ x.children, y.span.Within x.span
  some : ∀ y ∈ x.children, y.span.start < y.span.stop
  increasing : x.statements.Pairwise fun s t =>
    s.span.start < t.span.start ∧ s.span.stop ≤ t.span.start

/-- A region is sound, and so is everything in it. -/
def AllSound (source : List Char) (x : Region) : Prop := ∀ y, ReflTransGen Has x y → y.Sound source

section
variable {source : List Char} {x y : Region}

theorem AllSound.here (all : x.AllSound source) : x.Sound source := all x .refl

theorem AllSound.child (all : x.AllSound source) (child : y ∈ x.children) : y.AllSound source :=
  fun z deep => all z (.head child deep)

theorem AllSound.intro (here : x.Sound source) (children : ∀ y ∈ x.children, y.AllSound source) :
    x.AllSound source := by
  intro z deep
  rcases ReflTransGen.cases_head deep with rfl | ⟨y, child, deeper⟩
  · exact here
  · exact children y child z deeper

/-! ### Regions between two offsets -/

/-- A region that is not empty lies between two offsets, and everything in it is sound. -/
structure Lies (source : List Char) (lo hi : Nat) (x : Region) : Prop where
  after : lo ≤ x.span.start
  some : x.span.start < x.span.stop
  before : x.span.stop ≤ hi
  sound : x.AllSound source

/-- Regions that lie between two offsets. -/
def AllLie (source : List Char) (lo hi : Nat) (xs : List Region) : Prop :=
  ∀ x ∈ xs, x.Lies source lo hi

/-- Statements one after the other between two offsets. -/
structure InOrder (source : List Char) (lo hi : Nat) (body : List Stmt) : Prop where
  lie : ∀ s ∈ body, (Region.stmt s).Lies source lo hi
  apart : body.Pairwise fun s t => s.span.stop ≤ t.span.start

variable {lo lo' hi hi' : Nat} {xs ys : List Region}

theorem Lies.mono (lies : x.Lies source lo hi) (le : lo' ≤ lo) (le' : hi ≤ hi') :
    x.Lies source lo' hi' :=
  ⟨Nat.le_trans le lies.after, lies.some, Nat.le_trans lies.before le', lies.sound⟩

theorem Lies.starts (lies : x.Lies source lo hi) : (ofSource source).Boundary x.span.start :=
  lies.sound.here.starts

theorem Lies.stops (lies : x.Lies source lo hi) : (ofSource source).Boundary x.span.stop :=
  lies.sound.here.stops

/-- What lies directly inside of a region lies where the region does. -/
theorem AllSound.lies (all : x.AllSound source) (child : y ∈ x.children) :
    y.Lies source x.span.start x.span.stop :=
  ⟨(all.here.inside y child).1, all.here.some y child, (all.here.inside y child).2, all.child child⟩

theorem AllLie.nil : AllLie source lo hi [] := List.forall_mem_nil _

theorem AllLie.cons (first : x.Lies source lo hi) (rest : AllLie source lo hi xs) :
    AllLie source lo hi (x :: xs) :=
  List.forall_mem_cons.mpr ⟨first, rest⟩

theorem AllLie.single (lies : x.Lies source lo hi) : AllLie source lo hi [x] := .cons lies .nil

theorem AllLie.append (all : AllLie source lo hi xs) (more : AllLie source lo hi ys) :
    AllLie source lo hi (xs ++ ys) :=
  List.forall_mem_append.mpr ⟨all, more⟩

theorem AllLie.mono (all : AllLie source lo hi xs) (le : lo' ≤ lo) (le' : hi ≤ hi') :
    AllLie source lo' hi' xs :=
  fun x member => (all x member).mono le le'

theorem AllLie.map {α : Type} {f : α → Region} {as : List α}
    (all : ∀ a ∈ as, (f a).Lies source lo hi) : AllLie source lo hi (as.map f) := by
  intro x member
  obtain ⟨a, here, rfl⟩ := List.mem_map.mp member
  exact all a here

theorem AllLie.flatMap {α : Type} {f : α → List Region} {as : List α}
    (all : ∀ a ∈ as, AllLie source lo hi (f a)) : AllLie source lo hi (as.flatMap f) := by
  intro x member
  obtain ⟨a, here, inside⟩ := List.mem_flatMap.mp member
  exact all a here x inside

theorem InOrder.nil : InOrder source lo hi [] := ⟨List.forall_mem_nil _, .nil⟩

theorem InOrder.mono {body : List Stmt} (order : InOrder source lo hi body) (le : lo' ≤ lo)
    (le' : hi ≤ hi') : InOrder source lo' hi' body :=
  ⟨fun s member => (order.lie s member).mono le le', order.apart⟩

theorem InOrder.all {body : List Stmt} (order : InOrder source lo hi body) :
    AllLie source lo hi (body.map .stmt) :=
  .map order.lie

theorem InOrder.increasing {body : List Stmt} (order : InOrder source lo hi body) :
    body.Pairwise fun s t => s.span.start < t.span.start ∧ s.span.stop ≤ t.span.start :=
  order.apart.imp_of_mem fun {s _} member _ le => ⟨Nat.lt_of_lt_of_le (order.lie s member).some le, le⟩

/-- Another statement after the ones before. -/
theorem InOrder.concat {body : List Stmt} {s : Stmt} {mid : Nat} (order : InOrder source lo mid body)
    (lies : (Region.stmt s).Lies source lo' hi) (le : lo ≤ lo') (le' : mid ≤ lo') :
    InOrder source lo hi (body ++ [s]) := by
  have later : mid ≤ hi := by
    have := lies.after
    have := lies.some
    have := lies.before
    omega
  refine ⟨List.forall_mem_append.mpr ⟨fun t member => (order.lie t member).mono (Nat.le_refl _) later,
    List.forall_mem_singleton.mpr (lies.mono le (Nat.le_refl _))⟩, ?_⟩
  rw [List.pairwise_append]
  refine ⟨order.apart, List.pairwise_singleton _ _, fun t member u last => ?_⟩
  obtain rfl := List.mem_singleton.mp last
  exact Nat.le_trans (order.lie t member).before (Nat.le_trans le' lies.after)

/-! ### Making regions -/

/-- A region with statements lies between two offsets when what is inside of it lies in its span. -/
theorem Lies.ofStatements (starts : (ofSource source).Boundary x.span.start)
    (stops : (ofSource source).Boundary x.span.stop) (after : lo ≤ x.span.start)
    (some : x.span.start < x.span.stop) (before : x.span.stop ≤ hi)
    (all : AllLie source x.span.start x.span.stop x.children)
    (order : InOrder source x.span.start x.span.stop x.statements) : x.Lies source lo hi := by
  refine ⟨after, some, before, .intro ⟨Nat.le_of_lt some, stops.le_byteLength, starts, stops,
    fun y child => ⟨(all y child).after, (all y child).before⟩, fun y child => (all y child).some, ?_⟩
    fun y child => (all y child).sound⟩
  exact order.increasing

/-- A region with a given span, which ends where the text was read up to. -/
theorem Lies.spanning {start stop : Nat} (span : x.span = ⟨start, stop⟩)
    (starts : (ofSource source).Boundary start) (stops : (ofSource source).Boundary stop)
    (after : lo ≤ start) (some : start < stop) (all : AllLie source start stop x.children)
    (order : InOrder source start stop x.statements) : x.Lies source lo stop := by
  have before : x.span.stop ≤ stop := Nat.le_of_eq (congrArg Span.stop span)
  refine .ofStatements ?_ ?_ ?_ ?_ before ?_ ?_ <;> rw [span]
  · exact starts
  · exact stops
  · exact after
  · exact some
  · exact all
  · exact order

/-- A region without statements lies between two offsets when what is inside of it lies in its span. -/
theorem Lies.of (starts : (ofSource source).Boundary x.span.start)
    (stops : (ofSource source).Boundary x.span.stop) (after : lo ≤ x.span.start)
    (some : x.span.start < x.span.stop) (before : x.span.stop ≤ hi)
    (all : AllLie source x.span.start x.span.stop x.children) (plain : x.statements = []) :
    x.Lies source lo hi :=
  .ofStatements starts stops after some before all (by rw [plain]; exact .nil)

/-- A region from the start of one region to the end of a later one. -/
theorem Lies.join {first last : Region} (lies : first.Lies source lo hi) (lies' : last.Lies source lo hi)
    (span : x.span = first.span.join last.span)
    (all : AllLie source x.span.start x.span.stop x.children) (plain : x.statements = []) :
    x.Lies source lo hi := by
  have after := lies.after
  have some := lies.some
  have before := lies.before
  have after' := lies'.after
  have some' := lies'.some
  have before' := lies'.before
  refine .of ?_ ?_ ?_ ?_ ?_ all plain
  · rw [span, Span.join]
    rcases Nat.le_total first.span.start last.span.start with le | le
    · simpa only [Nat.min_eq_left le] using lies.starts
    · simpa only [Nat.min_eq_right le] using lies'.starts
  · rw [span, Span.join]
    rcases Nat.le_total first.span.stop last.span.stop with le | le
    · simpa only [Nat.max_eq_right le] using lies'.stops
    · simpa only [Nat.max_eq_left le] using lies.stops
  all_goals
    simp only [span, Span.join]
    omega

/-- The parts of a region that joins them lie in it. -/
theorem Lies.left {first : Region} (lies : first.Lies source lo hi) (last : Span) :
    first.Lies source (first.span.join last).start (first.span.join last).stop :=
  ⟨(Span.within_join_left _ _).1, lies.some, (Span.within_join_left _ _).2, lies.sound⟩

theorem Lies.right {last : Region} (lies : last.Lies source lo hi) (first : Span) :
    last.Lies source (first.join last.span).start (first.join last.span).stop :=
  ⟨(Span.within_join_right _ _).1, lies.some, (Span.within_join_right _ _).2, lies.sound⟩

end
end Region
end NameAudit
