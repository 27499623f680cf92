import Mathlib
import NameAudit.Proofs.StatementRules

/-!
The places that a program writes to. Assignments, steps after an operand and the heads of loops over keys or
elements write to identifiers and to members whose own link is not optional; where a value may be taken
apart, an array or an object is read again as a pattern, and the targets in it are members. What cannot be
read again is refused as an invalid target (`parse_writes_places`). No other link of a chain is looked at, nor
any link of a target in a pattern, and a step before its operand writes to whatever it finds
(`accepts_unchecked_places`).
-/
namespace NameAudit

open Relation (ReflTransGen)

/-! ### Places -/

/-- What a link of a chain hangs on. -/
def Expr.owner? : Expr → Option Expr
  | .member _ _ owner _ | .index _ _ owner _ | .call _ _ owner _ => some owner
  | .template _ tag _ => tag
  | _ => none

/-- Whether the last link of a chain is optional. -/
def Expr.isOptionalLink : Expr → Bool
  | .member _ isOptional _ _ | .index _ isOptional _ _ | .call _ isOptional _ _ => isOptional
  | _ => false

/-- A link of the chain that an expression is, from the last one on. -/
inductive Expr.Link (e : Expr) : Expr → Prop
  | last : Expr.Link e e
  | before {link owner : Expr} : Expr.Link e link → link.owner? = some owner → Expr.Link e owner

/-- An identifier, or a member or element. -/
def Expr.isReference : Expr → Bool
  | .ident _ _ | .member _ _ _ _ | .index _ _ _ _ => true
  | _ => false

/-- An identifier, or a member or element with no optional link in its chain. -/
def Expr.IsPlace (e : Expr) : Prop :=
  e.isReference = true ∧ ∀ link, e.Link link → link.isOptionalLink = false

/-- An array or an object that takes a value apart. -/
def Expr.isDestructuring : Expr → Bool
  | .destructuring _ => true
  | _ => false

/-- How a place comes to be written to. -/
inductive Writing where
  | assigned (op : AssignmentOperator)
  /-- By a step after it. -/
  | stepped
  /-- By the head of a loop over keys or elements. -/
  | looped
  /-- As a part of a pattern. -/
  | nested
  deriving DecidableEq

/-- Whether what is written may be taken apart. -/
def Writing.takesApart : Writing → Bool
  | .assigned op => op == .plain
  | .looped => true
  | .stepped | .nested => false

/-- The place that a node writes to, unless it is a step before its operand. -/
def Node.writes : Node → Option (Writing × Expr)
  | .expr (.assign _ op target _) => some (.assigned op, target)
  | .expr (.step _ _ target) => some (.stepped, target)
  | .stmt (.mk _ _ (.forEach _ _ (.target e) _ _)) => some (.looped, e)
  | .pattern (.target e) => some (.nested, e)
  | _ => none

/-- The links of a place that are not looked at: all but the last one, and the last one as well in a
pattern. -/
def Writing.Unseen (how : Writing) (e link : Expr) : Prop :=
  e.Link link ∧ (how = .nested ∨ link ≠ e)

/-- A node writes to a place, or it takes a value apart where this is possible, as long as the links that
are not looked at are not optional. -/
def Node.WritesPlace (n : Node) : Prop :=
  ∀ how e, n.writes = some (how, e) → (∀ link, how.Unseen e link → link.isOptionalLink = false) →
    e.IsPlace ∨ how.takesApart = true ∧ e.isDestructuring = true

/-! ### What is read again as a target -/

theorem Expr.isDestructuring_toDestructuring {e target : Expr} (read : e.toDestructuring = .ok target) :
    target.isDestructuring = true := by
  obtain ⟨p, -, same⟩ := bind_eq_ok_iff.mp read
  split at same
  · cases same
    rfl
  · cases same

/-- What is read again as a target is an identifier, a member or an element whose own link is not optional,
or it takes a value apart where this is possible. -/
theorem Expr.toTarget_ok {takesApart : Bool} {e target : Expr} (read : e.toTarget takesApart = .ok target) :
    target.isReference = true ∧ target.isOptionalLink = false ∨
      takesApart = true ∧ target.isDestructuring = true := by
  unfold Expr.toTarget at read
  split at read
  · split at read
    next apart => exact .inr ⟨apart, Expr.isDestructuring_toDestructuring read⟩
    · cases read
  · split at read
    next apart => exact .inr ⟨apart, Expr.isDestructuring_toDestructuring read⟩
    · cases read
  · cases read
    exact .inl ⟨rfl, rfl⟩
  · cases read
    exact .inl ⟨rfl, rfl⟩
  · cases read
    exact .inl ⟨rfl, rfl⟩
  · cases read

/-- What is read again as a pattern in a place is a member or an element. -/
theorem Expr.toPattern_target {binding : Bool} {e target : Expr}
    (read : e.toPattern binding = .ok (.target target)) : target.isReference = true := by
  unfold Expr.toPattern at read
  split at read
  · cases read
  · cases read
  · obtain ⟨_, -, same⟩ := bind_eq_ok_iff.mp read
    cases same
  · obtain ⟨_, -, same⟩ := bind_eq_ok_iff.mp read
    cases same
  · split at read
    · cases read
    · cases read
      rfl
  · split at read
    · cases read
    · cases read
      rfl
  · cases read

/-! ### All places of a program -/

theorem Node.WritesPlace.of_none {n : Node} (nothing : n.writes = none) : n.WritesPlace := by
  intro how e writes
  rw [nothing] at writes
  cases writes

/-- What was read again as a target is a place when its other links are not optional. -/
theorem Node.WritesPlace.of_toTarget {n : Node} (how : Writing) {left target : Expr}
    (writes : n.writes = some (how, target)) (read : left.toTarget how.takesApart = .ok target) :
    n.WritesPlace := by
  intro how' e writes' unseen
  obtain ⟨rfl, rfl⟩ : how = how' ∧ target = e := by simpa [writes] using writes'
  rcases Expr.toTarget_ok read with ⟨reference, plain⟩ | apart
  · refine .inl ⟨reference, fun link chain => ?_⟩
    by_cases last : link = target
    · rw [last]
      exact plain
    · exact unseen link ⟨chain, .inr last⟩
  · exact .inr apart

/-- A pattern that was read again writes to members and elements. -/
theorem Node.WritesPlace.of_reference {p : Pattern}
    (reference : ∀ e, p = .target e → e.isReference = true) : (Node.pattern p).WritesPlace := by
  intro how e writes unseen
  cases p with
  | target e' =>
    obtain ⟨rfl, rfl⟩ : Writing.nested = how ∧ e' = e := by simpa [Node.writes] using writes
    exact .inl ⟨reference _ rfl, fun link chain => unseen link ⟨chain, .inl rfl⟩⟩
  | ident _ _ => cases writes
  | destructuring _ => cases writes

/-- What is written to is a law of the trees that the parser builds. -/
theorem law_writesPlace : Law Node.WritesPlace where
  plain n plain _ := by
    refine .of_none ?_
    unfold Node.writes
    split
    · cases plain
    · cases plain
    · cases plain
    · cases plain
    · rfl
  assign _ op _ _ _ read := .of_toTarget (.assigned op) rfl read
  step _ _ _ _ read := .of_toTarget .stepped rfl read
  converted _ _ p read := .of_reference fun target is => Expr.toPattern_target (is ▸ read)
  declared p declares := .of_reference fun target is => by
    rw [is] at declares
    cases declares
  listed _ _ _ _ _ _ _ := .of_none rfl
  arrow _ _ _ _ _ := .of_none rfl
  vars _ _ _ _ _ := .of_none rfl
  forLoop _ _ _ _ _ _ _ := .of_none rfl
  forEach _ _ _ _ head _ _ assigns := by
    cases head with
    | target e =>
      obtain ⟨left, read⟩ := assigns
      exact .of_toTarget .looped rfl read
    | declares mode p => exact .of_none rfl
  handler _ _ _ _ := .of_none rfl

/-! ### What is refused -/

namespace Parser

variable {s s' : ParserState} {t : Token}

theorem bind_of_ok {α β : Type} {p : Parser α} {a : α} {k : α → Parser β} (done : p s = .ok (a, s')) :
    (p >>= k) s = k a s' := by
  rw [bind_apply, done]
  rfl

/-- A token that was looked at can be taken. -/
theorem consume_of_peek (seen : peek s = .ok (t, s')) : ∃ after, consume s' = .ok (t, after) := by
  have again : peek s' = .ok (t, s') := by
    unfold peek look at seen ⊢
    simp only [bind_apply, get_apply, Except.bind] at seen ⊢
    cases cached : s.cached? .operator with
    | some a =>
      rw [cached] at seen
      cases seen
      rw [cached]
      rfl
    | none =>
      rw [cached] at seen
      cases read : Scan.token .operator s.position with
      | error e =>
        rw [read] at seen
        cases seen
      | ok answer =>
        rw [read] at seen
        cases seen
        rfl
  refine ⟨{ s' with ahead := none, prevEnd := t.span.stop }, ?_⟩
  show (peek s').bind _ = _
  rw [again]
  rfl

/-- A parser that gives up at an expression that is no target. -/
def GivesUp {α : Type} (p : Except ParseFailure α) : Prop :=
  ∃ span, p = .error (.malformed ⟨.invalidTarget, span, none⟩)

/-- Reading again what is no target gives up at it. -/
theorem givesUp_of_refuses {α β : Type} {x : Except SyntaxError α} (refuses : Refuses x)
    (invalid : ∀ a, x ≠ .ok a) (next : α → Parser β) (s : ParserState) :
    GivesUp ((ofExcept x >>= next) s) := by
  cases x with
  | ok a => exact (invalid a rfl).elim
  | error e =>
    obtain ⟨cause, found⟩ := refuses e rfl
    obtain ⟨c, span, f⟩ := e
    dsimp only at cause found
    subst cause found
    exact ⟨span, rfl⟩

/-- An assignment gives up when its left side is no target. -/
theorem assignment_givesUp {g : Grammar} {ctx : Context} {s₁ s₂ s₃ : ParserState} {next : Token}
    {left : Expr} {op : AssignmentOperator} (first : peekOperand s = .ok (t, s₁))
    (yields : (ctx.inGenerator && t.isWord "yield") = false)
    (read : conditional g ctx s₁ = .ok (left, s₂)) (ahead : peek s₂ = .ok (next, s₃))
    (is : AssignmentOperator.ofToken? next.kind = some op)
    (invalid : ∀ target, left.toTarget (op == .plain) ≠ .ok target) :
    GivesUp (assignmentRule g ctx s) := by
  obtain ⟨s₄, taken⟩ := consume_of_peek ahead
  simp only [assignmentRule, bind_of_ok first, yields, Bool.false_eq_true, if_false, bind_of_ok read,
    bind_of_ok ahead, is, bind_of_ok taken]
  exact givesUp_of_refuses (Expr.toTarget_refuses _ left) invalid _ s₄

/-- A step after an operand gives up when this is no target. -/
theorem step_givesUp {g : Grammar} {ctx : Context} {s₁ s₂ s₃ : ParserState} {next : Token}
    {operand : Expr} {op : StepOperator} (first : peekOperand s = .ok (t, s₁))
    (plain : unaryOperator? ctx t = none) (read : g.leftHand ctx s₁ = .ok (operand, s₂))
    (ahead : peek s₂ = .ok (next, s₃)) (is : stepOperator? next = some op)
    (invalid : ∀ target, operand.toTarget false ≠ .ok target) : GivesUp (unaryRule g ctx s) := by
  obtain ⟨s₄, taken⟩ := consume_of_peek ahead
  simp only [unaryRule, bind_of_ok first, plain, bind_of_ok read, bind_of_ok ahead, is, bind_of_ok taken]
  exact givesUp_of_refuses (Expr.toTarget_refuses _ operand) invalid _ s₄

/-- A loop over keys or elements gives up when its head is an expression that is no target. -/
theorem forHead_givesUp {e : Expr} (next : Token) (invalid : ∀ target, e.toTarget true ≠ .ok target)
    (s : ParserState) : GivesUp (forHead (.expr e) next s) :=
  givesUp_of_refuses (Expr.toTarget_refuses true e) invalid _ s

end Parser

/-- A grammar refuses what cannot be read again as a target, wherever a target has to stand. -/
structure Grammar.RefusesInvalid (g : Grammar) : Prop where
  assigned : ∀ ctx s t s₁ left s₂ next s₃ op, Parser.peekOperand s = .ok (t, s₁) →
    (ctx.inGenerator && t.isWord "yield") = false → Parser.conditional g ctx s₁ = .ok (left, s₂) →
    Parser.peek s₂ = .ok (next, s₃) → AssignmentOperator.ofToken? next.kind = some op →
    (∀ target, left.toTarget (op == .plain) ≠ .ok target) → Parser.GivesUp (Parser.assignmentRule g ctx s)
  stepped : ∀ ctx s t s₁ operand s₂ next s₃ op, Parser.peekOperand s = .ok (t, s₁) →
    Parser.unaryOperator? ctx t = none → g.leftHand ctx s₁ = .ok (operand, s₂) →
    Parser.peek s₂ = .ok (next, s₃) → Parser.stepOperator? next = some op →
    (∀ target, operand.toTarget false ≠ .ok target) → Parser.GivesUp (Parser.unaryRule g ctx s)
  looped : ∀ e next s, (∀ target, e.toTarget true ≠ .ok target) →
    Parser.GivesUp (Parser.forHead (.expr e) next s)

theorem Grammar.refusesInvalid (g : Grammar) : g.RefusesInvalid where
  assigned _ _ _ _ _ _ _ _ _ first yields read ahead is invalid :=
    Parser.assignment_givesUp first yields read ahead is invalid
  stepped _ _ _ _ _ _ _ _ _ first plain read ahead is invalid :=
    Parser.step_givesUp first plain read ahead is invalid
  looped _ next s invalid := Parser.forHead_givesUp next invalid s

/-- An accepted program writes to identifiers, members and elements, and takes values apart where this is
possible, as long as the links that are not looked at are not optional; where the left side of an
assignment, the operand before a step or the head of a loop cannot be read again as such a target, the
parser gives up with an invalid target. -/
theorem parse_writes_places (source : String) :
    (∀ script s n, parse source = .ok script → s ∈ script.body → ReflTransGen Node.Has (.stmt s) n →
      n.WritesPlace) ∧ (Grammar.forSource source.toList).RefusesInvalid :=
  ⟨fun _ s n read here within => (parse_whole law_writesPlace read s here).1 n within,
    Grammar.refusesInvalid _⟩

/-- The member on the left of an assignment is a place. -/
theorem parse_writes_places_member :
    ∃ (script : Script) (s : Stmt) (n : Node) (e : Expr), parse "a.b=c" = .ok script ∧
      s ∈ script.body ∧ ReflTransGen Node.Has (.stmt s) n ∧ n.writes = some (.assigned .plain, e) ∧
      e.IsPlace := by
  let owner : Expr := .ident ⟨0, 1⟩ "a"
  let e : Expr := .member ⟨0, 3⟩ false owner "b"
  let n : Node := .expr (.assign ⟨0, 5⟩ .plain e (.ident ⟨4, 5⟩ "c"))
  let s : Stmt := .mk ⟨0, 5⟩ none (.expr (.assign ⟨0, 5⟩ .plain e (.ident ⟨4, 5⟩ "c")))
  have read : parse "a.b=c" = .ok ⟨⟨0, 5⟩, none, [s]⟩ := by
    cbv
  have within : ReflTransGen Node.Has (.stmt s) n := .single ⟨default, default, List.mem_cons_self⟩
  have links : ∀ link, e.Link link → link = e ∨ link = owner := by
    intro link chain
    induction chain with
    | last => exact .inl rfl
    | before _ hangs ih =>
      rcases ih with rfl | rfl
      · exact .inr (Option.some.inj hangs).symm
      · cases hangs
  have plain : ∀ link, (Writing.assigned .plain).Unseen e link → link.isOptionalLink = false := by
    rintro link ⟨chain, -⟩
    rcases links link chain with rfl | rfl <;> rfl
  rcases (parse_writes_places "a.b=c").1 _ s n read List.mem_cons_self within _ e rfl plain with
    place | ⟨-, apart⟩
  · exact ⟨_, s, n, e, read, List.mem_cons_self, within, rfl, place⟩
  · cases apart

/-- The operand of a step before it is not looked at, which has to be a place after it: `++f()` is accepted. Of a
chain on the left side of an assignment only the last link is looked at, as in `a?.b.c=d`, and of one in a pattern
none, as in `[a?.b]=c`. -/
theorem accepts_unchecked_places :
    (∃ (script : Script) (s : Stmt) (span : Span) (operand : Expr), parse "++f()" = .ok script ∧
      s ∈ script.body ∧ ReflTransGen Node.Has (.stmt s) (.expr (.unary span .increment operand)) ∧
      operand.isReference = false) ∧
    (∃ (script : Script) (s : Stmt) (n : Node) (e link : Expr), parse "a?.b.c=d" = .ok script ∧
      s ∈ script.body ∧ ReflTransGen Node.Has (.stmt s) n ∧ n.writes = some (.assigned .plain, e) ∧
      e.Link link ∧ link.isOptionalLink = true) ∧
    ∃ (script : Script) (s : Stmt) (n : Node) (e : Expr), parse "[a?.b]=c" = .ok script ∧
      s ∈ script.body ∧ ReflTransGen Node.Has (.stmt s) n ∧ n.writes = some (.nested, e) ∧
      e.isOptionalLink = true := by
  refine ⟨?step, ?assignment, ?pattern⟩
  case step =>
    let operand : Expr := .call ⟨2, 5⟩ false (.ident ⟨2, 3⟩ "f") []
    let s : Stmt := .mk ⟨0, 5⟩ none (.expr (.unary ⟨0, 5⟩ .increment operand))
    have read : parse "++f()" = .ok ⟨⟨0, 5⟩, none, [s]⟩ := by
      cbv
    have within : ReflTransGen Node.Has (.stmt s) (.expr (.unary ⟨0, 5⟩ .increment operand)) :=
      .single ⟨default, default, List.mem_cons_self⟩
    exact ⟨_, s, ⟨0, 5⟩, operand, read, List.mem_cons_self, within, rfl⟩
  case assignment =>
    let link : Expr := .member ⟨0, 4⟩ true (.ident ⟨0, 1⟩ "a") "b"
    let e : Expr := .member ⟨0, 6⟩ false link "c"
    let n : Node := .expr (.assign ⟨0, 8⟩ .plain e (.ident ⟨7, 8⟩ "d"))
    let s : Stmt := .mk ⟨0, 8⟩ none (.expr (.assign ⟨0, 8⟩ .plain e (.ident ⟨7, 8⟩ "d")))
    have read : parse "a?.b.c=d" = .ok ⟨⟨0, 8⟩, none, [s]⟩ := by
      cbv
    have within : ReflTransGen Node.Has (.stmt s) n := .single ⟨default, default, List.mem_cons_self⟩
    exact ⟨_, s, n, e, link, read, List.mem_cons_self, within, rfl, .before .last rfl, rfl⟩
  case pattern =>
    let e : Expr := .member ⟨1, 5⟩ true (.ident ⟨1, 2⟩ "a") "b"
    let target : Expr := .destructuring (.array ⟨0, 6⟩ [.item (.target e) none] none)
    let whole : Expr := .assign ⟨0, 8⟩ .plain target (.ident ⟨7, 8⟩ "c")
    let s : Stmt := .mk ⟨0, 8⟩ none (.expr whole)
    have read : parse "[a?.b]=c" = .ok ⟨⟨0, 8⟩, none, [s]⟩ := by
      cbv
    have first : Node.Has (.stmt s) (.expr whole) := ⟨default, default, List.mem_cons_self⟩
    have second : Node.Has (.expr whole) (.expr target) := ⟨default, default, List.mem_cons_self⟩
    have third : Node.Has (.expr target) (.pattern (.target e)) :=
      ⟨default, default, List.mem_cons_self⟩
    exact ⟨_, s, .pattern (.target e), e, read, List.mem_cons_self,
      .tail (.tail (.single first) second) third, rfl, rfl⟩

end NameAudit
