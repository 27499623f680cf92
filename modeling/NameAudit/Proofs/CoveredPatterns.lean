import NameAudit.Parser.Expression
import NameAudit.Proofs.TreeLaws
import Mathlib.Data.List.Forall2

/-!
Expressions that cover a pattern (`Expr.Covers`): they are read again as this very pattern, as parameters,
as parts of other patterns and before an equals sign. An array covers an array pattern when its elements
cover the elements, and an object likewise.
-/
namespace NameAudit

/-- An expression is read again as a pattern, also by way of the target of an assignment. -/
structure Expr.Covers (e : Expr) (p : Pattern) : Prop where
  pattern : ∀ binding, e.toPattern binding = .ok p
  target : ∃ target, e.toTarget true = .ok target ∧ ∀ binding, target.toPattern binding = .ok p
  plain : ∀ span op target value, e ≠ .assign span op target value

/-- An expression is read again as a pattern with a default, which an assignment has on its right side. -/
inductive Expr.CoversDefaulted : Expr → Pattern → Option Expr → Prop
  | plain {e : Expr} {p : Pattern} (covers : e.Covers p) : CoversDefaulted e p none
  | assign {target value : Expr} {p : Pattern} (span : Span)
    (again : ∀ binding, target.toPattern binding = .ok p) :
    CoversDefaulted (.assign span .plain target value) p (some value)

/-- An element of an array literal is read again as one of a pattern. -/
inductive Element.Covers : Element → PatternElement → Prop
  | hole : Covers .hole .hole
  | item {e : Expr} {p : Pattern} {default : Option Expr} (covers : e.CoversDefaulted p default) :
    Covers (.item e) (.item p default)

/-- A member of an object literal is read again as a property of a pattern. -/
inductive Member.Covers : Member → PatternProperty → Prop
  | shorthand (span : Span) (name : String) (nameSpan : Span) :
    Covers (.shorthand span name nameSpan) (.ofShorthand span name nameSpan)
  | property {e : Expr} {p : Pattern} {default : Option Expr} (span : Span) (key : Key)
    (covers : e.CoversDefaulted p default) :
    Covers (.property span key (.value (some e))) (.mk span key p default)

section
variable {binding : Bool} {rest : Option Pattern}

theorem Element.Covers.toPatterns {x : Element} {y : PatternElement} {xs : List Element}
    {ys : List PatternElement} (covers : x.Covers y)
    (others : Element.toPatterns binding xs = .ok (ys, rest)) :
    Element.toPatterns binding (x :: xs) = .ok (y :: ys, rest) := by
  cases covers with
  | hole =>
    rw [Element.toPatterns, others]
    rfl
  | item covers =>
    cases covers with
    | plain covers =>
      rw [Element.toPatterns, covers.pattern binding, others]
      · rfl
      · exact fun span target value same => covers.plain span .plain target value same
    | assign span again =>
      rw [Element.toPatterns, again binding, others]
      rfl

theorem Element.toPatterns_append {xs ys : List Element} {es fs : List PatternElement}
    (covers : List.Forall₂ Element.Covers xs es)
    (others : Element.toPatterns binding ys = .ok (fs, rest)) :
    Element.toPatterns binding (xs ++ ys) = .ok (es ++ fs, rest) := by
  induction covers with
  | nil => exact others
  | cons first _ ih => exact first.toPatterns ih

theorem Member.Covers.toPatterns {x : Member} {y : PatternProperty} {xs : List Member}
    {ys : List PatternProperty} (covers : x.Covers y)
    (others : Member.toPatterns binding xs = .ok (ys, rest)) :
    Member.toPatterns binding (x :: xs) = .ok (y :: ys, rest) := by
  cases covers with
  | shorthand =>
    rw [Member.toPatterns, others]
    rfl
  | property span key covers =>
    cases covers with
    | plain covers =>
      rw [Member.toPatterns, covers.pattern binding, others]
      · rfl
      · exact fun span target value same => covers.plain span .plain target value same
    | assign span again =>
      rw [Member.toPatterns, again binding, others]
      rfl

theorem Member.toPatterns_append {xs ys : List Member} {ps qs : List PatternProperty}
    (covers : List.Forall₂ Member.Covers xs ps)
    (others : Member.toPatterns binding ys = .ok (qs, rest)) :
    Member.toPatterns binding (xs ++ ys) = .ok (ps ++ qs, rest) := by
  induction covers with
  | nil => exact others
  | cons first _ ih => exact first.toPatterns ih

end

theorem Expr.covers_ident (span : Span) (name : String) :
    (Expr.ident span name).Covers (.ident span name) :=
  ⟨fun _ => rfl, ⟨.ident span name, rfl, fun _ => rfl⟩, by rintro _ _ _ _ ⟨⟩⟩

theorem Expr.covers_array (span : Span) {xs : List Element} {es : List PatternElement}
    {rest : Option Pattern} (read : ∀ binding, Element.toPatterns binding xs = .ok (es, rest)) :
    (Expr.array span xs).Covers (.destructuring (.array span es rest)) := by
  have pattern (binding : Bool) :
      (Expr.array span xs).toPattern binding = .ok (.destructuring (.array span es rest)) := by
    rw [Expr.toPattern, read binding]
    rfl
  refine ⟨pattern, ⟨.destructuring (.array span es rest), ?_, fun _ => rfl⟩, by rintro _ _ _ _ ⟨⟩⟩
  rw [Expr.toTarget, if_pos rfl, Expr.toDestructuring, pattern false]
  rfl

theorem Expr.covers_object (span : Span) {xs : List Member} {ps : List PatternProperty}
    {rest : Option Pattern} (read : ∀ binding, Member.toPatterns binding xs = .ok (ps, rest)) :
    (Expr.object span xs).Covers (.destructuring (.object span ps rest)) := by
  have pattern (binding : Bool) :
      (Expr.object span xs).toPattern binding = .ok (.destructuring (.object span ps rest)) := by
    rw [Expr.toPattern, read binding]
    rfl
  refine ⟨pattern, ⟨.destructuring (.object span ps rest), ?_, fun _ => rfl⟩, by rintro _ _ _ _ ⟨⟩⟩
  rw [Expr.toTarget, if_pos rfl, Expr.toDestructuring, pattern false]
  rfl

/-! ### Parameters -/

theorem Expr.CoversDefaulted.toParam {e : Expr} {p : Pattern} {default : Option Expr}
    (covers : e.CoversDefaulted p default) :
    e.toParam false = .ok (Param.ofParts p false default) := by
  cases covers with
  | plain covers =>
    unfold Expr.toParam
    split
    · exact absurd rfl (covers.plain _ _ _ _)
    · rw [covers.pattern true]
      rfl
  | assign span again =>
    rw [Expr.toParam, again true]
    rfl

namespace Parser

/-- What stands in parentheses is read again as a parameter. -/
inductive ParenItem.Covers : Param → ParenItem → Prop
  | expr {e : Expr} {p : Pattern} {default : Option Expr} (covers : e.CoversDefaulted p default) :
    Covers (Param.ofParts p false default) (.expr e)
  | rest (p : Pattern) : Covers (Param.ofParts p true none) (.rest p)

/-- The items between parentheses are read again as parameters, of which only the last one takes the
remaining arguments. -/
theorem ParenItem.Covers.toParams {params : List Param} {items : List ParenItem}
    (covers : List.Forall₂ Covers params items) (last : ∀ p ∈ params.dropLast, p.isRest = false) :
    ∃ listed, exprsToParams (exprs items) = .ok listed ∧ listed ++ rests items = params := by
  induction covers with
  | nil => exact ⟨[], rfl, rfl⟩
  | @cons param item params items first others ih =>
    have later : ∀ p ∈ params.dropLast, p.isRest = false := by
      cases others with
      | nil => exact fun _ member => nomatch member
      | cons => exact fun p member => last p (List.mem_cons_of_mem _ member)
    cases first with
    | expr covers =>
      obtain ⟨listed, read, same⟩ := ih later
      refine ⟨_ :: listed, ?_, congrArg (List.cons _) same⟩
      rw [exprs, exprsToParams, covers.toParam, read]
      rfl
    | rest p =>
      cases others with
      | nil => exact ⟨[], rfl, rfl⟩
      | cons => cases last _ List.mem_cons_self

end Parser
end NameAudit
