import NameAudit.Proofs.ConvertedRegions
import NameAudit.Proofs.Placement

/-!
Where what the rules read stands that the grammar uses everywhere, as long as the rules that they are written
in terms of read their regions where they stand (`Grammar.Places`).
-/
namespace NameAudit

open Scan (front token)
open Region (Lies AllLie InOrder)

/-- The rules of a grammar read their regions where they stand. -/
structure Grammar.Places (source : List Char) (g : Grammar) : Prop where
  statement : ∀ {c : Cursor} (ctx : Context),
    Parser.Ends source c (g.statement ctx) fun s => Region.Read source c (.stmt s)
  assignment : ∀ {c : Cursor} (ctx : Context),
    Parser.Ends source c (g.assignment ctx) fun e => Region.Read source c (.expr e)
  binary : ∀ {c : Cursor} (ctx : Context) (level : Nat),
    Parser.Ends source c (g.binary ctx level) fun e => Region.Read source c (.expr e)
  unary : ∀ {c : Cursor} (ctx : Context),
    Parser.Ends source c (g.unary ctx) fun e => Region.Read source c (.expr e)
  leftHand : ∀ {c : Cursor} (ctx : Context),
    Parser.Ends source c (g.leftHand ctx) fun e => Region.Read source c (.expr e)
  construction : ∀ {c : Cursor} (ctx : Context),
    Parser.Ends source c (g.construction ctx) fun e => Region.Read source c (.expr e)
  pattern : ∀ {c : Cursor} (ctx : Context),
    Parser.Ends source c (g.pattern ctx) fun p => Region.Read source c (.pattern p)

namespace Parser

section
variable {source : List Char} {g : Grammar} {c : Cursor}

/-! ### Expressions -/

theorem ends_expression (places : g.Places source) (ctx : Context) :
    Ends source c (expression g ctx) fun e => Region.Read source c (.expr e) := by
  refine (places.assignment ctx).bind fun first d le le' lies => ?_
  refine ends_loop (fun e => Region.Read source c (.expr e)) lies fun left e _ further before => ?_
  refine Ends.eat (by rintro ⟨⟩) (fun f later later' _ => ?_) (ends_pure before)
  refine (places.assignment ctx).bind fun right h last _ after => ends_pure ?_
  have before : Region.Read source c (.expr left) h := before.mono (Nat.le_refl _) (by omega)
  have after : Region.Read source c (.expr right) h := after.mono (by omega) (Nat.le_refl _)
  exact before.join after rfl (.cons (before.left _) (.single (after.right _))) rfl

theorem ends_parenthesised (places : g.Places source) (ctx : Context) :
    Ends source c (parenthesised g ctx) fun e => Region.Read source c (.expr e) := by
  refine Ends.require (by rintro ⟨⟩) fun _ d le le' _ _ => ?_
  refine (ends_expression places ctx).bind fun e f _ _ lies => ?_
  exact Ends.require (by rintro ⟨⟩) fun _ h later _ _ _ => ends_pure (lies.mono le' later)

theorem ends_initializer (places : g.Places source) (ctx : Context) :
    Ends source c (initializer g ctx) fun e => Region.AllRead source c (Expr.optionalRegions e) := by
  refine Ends.eat (by rintro ⟨⟩) (fun d _ le' _ => ?_) (ends_pure .nil)
  exact (places.assignment ctx).bind fun e f _ _ lies =>
    ends_pure (.single (lies.mono le' (Nat.le_refl _)))

theorem ends_argument (places : g.Places source) (ctx : Context) :
    Ends source c (argument g ctx) fun arg => Region.Read source c (.arg arg) := by
  refine Ends.look fun t e _ stands => ?_
  have start := stands.start
  refine (runs_eat (w := .alone source)).ends.bind fun isSpread d le le' _ => ?_
  refine (places.assignment _).bind fun value f further _ lies => ?_
  have after := lies.after
  have some := lies.some
  have before := lies.before
  refine Ends.since (by omega) fun stops => ends_pure ?_
  exact .spanning rfl stands.starts stops (by omega) (by omega)
    (.single (lies.mono (by omega) (Nat.le_refl _))) .nil

theorem ends_arguments (places : g.Places source) (ctx : Context) :
    Ends source c (arguments g ctx) fun args d =>
      front c < d.offset ∧ ∀ arg ∈ args, Region.Read source c (.arg arg) d := by
  refine Ends.require (by rintro ⟨⟩) fun _ d le le' lt _ => ?_
  refine (ends_itemsOf (f := fun arg => [.arg arg]) fun e =>
    (ends_argument places ctx).mono fun arg _ _ _ lies => .single lies).mono fun args e further _ filled => ?_
  exact ⟨by omega, fun arg member => (filled arg member).head.mono le' (Nat.le_refl _)⟩

/-- A key takes the next token, and what it computes lies after it. -/
theorem ends_key (places : g.Places source) (ctx : Context) (inClass : Bool) :
    Ends source c (key g ctx inClass) fun k d => front c < d.offset ∧
      (∀ t e, token .operator c = .ok (t, e) → e.offset ≤ d.offset) ∧
        Region.AllRead source c k.regions d := by
  refine Ends.take fun t d le le' read stands => ?_
  have start := stands.start
  have stop := stands.stop
  have plain (more : t.kind ≠ .eof) (k : Key) (none : k.regions = []) : front c < d.offset ∧
      (∀ t e, token .operator c = .ok (t, e) → e.offset ≤ d.offset) ∧
        Region.AllRead source c k.regions d := by
    have some := stands.some more
    refine ⟨by omega, fun u e again => ?_, by rw [none]; exact .nil⟩
    obtain ⟨-, rfl⟩ : t = u ∧ d = e := by simpa using read.symm.trans again
    exact Nat.le_refl _
  split
  next kind =>
    refine (ends_nameOf t).bind ?_
    rintro name d - - rfl
    exact ends_pure (plain (by rw [kind]; rintro ⟨⟩) _ rfl)
  next kind =>
    refine (ends_stringOf t).bind ?_
    rintro name d - - rfl
    exact ends_pure (plain (by rw [kind]; rintro ⟨⟩) _ rfl)
  next kind => exact ends_pure (plain (by rw [kind]; rintro ⟨⟩) _ rfl)
  next kind => exact ends_pure (plain (by rw [kind]; rintro ⟨⟩) _ rfl)
  next kind => exact ends_pure (plain (by rw [kind]; rintro ⟨⟩) _ rfl)
  next kind =>
    split
    · exact ends_pure (plain (by rw [kind]; rintro ⟨⟩) _ rfl)
    · exact ends_unexpected
  next kind =>
    obtain ⟨some, ends, -⟩ := plain (by rw [kind]; rintro ⟨⟩) (.direct "") rfl
    refine (places.assignment _).bind fun e f further _ lies => ?_
    refine Ends.require (by rintro ⟨⟩) fun _ h later _ _ _ => ends_pure ⟨by omega, fun u i again => ?_, ?_⟩
    · have := ends u i again
      omega
    · exact .single (lies.mono le' later)
  · exact ends_unexpected

/-! ### Statements -/

/-- Another statement that is read after the ones before. -/
theorem inOrder_concat {body : List Stmt} {s : Stmt} {d e : Cursor} {lo : Nat} (order : InOrder source lo d.offset body)
    (lies : Region.Read source d (.stmt s) e) (le : lo ≤ front d) :
    InOrder source lo e.offset (body ++ [s]) :=
  order.concat lies le (Scan.offset_le_front d)

theorem ends_statementsUntil (places : g.Places source) (ctx : Context) (stop : TokenKind) :
    Ends source c (statementsUntil g ctx stop) fun body d => InOrder source (front c) d.offset body := by
  refine ends_loop (fun body d => InOrder source (front c) d.offset body) .nil fun body d _ le' order => ?_
  refine Ends.look fun t e _ _ => ?_
  split
  · exact ends_pure order
  · split
    · exact ends_failAt
    · exact (places.statement ctx).bind fun s e _ _ lies => ends_pure (inOrder_concat order lies le')

theorem ends_braced (places : g.Places source) (ctx : Context) :
    Ends source c (braced g ctx) fun body d =>
      front c < d.offset ∧ InOrder source (front c) d.offset body := by
  refine Ends.require (by rintro ⟨⟩) fun _ d le le' lt _ => ?_
  refine (ends_statementsUntil places ctx _).bind fun body e further _ order => ?_
  refine Ends.require (by rintro ⟨⟩) fun _ f later _ _ _ => ends_pure ⟨by omega, ?_⟩
  exact order.mono le' later

theorem ends_block (places : g.Places source) (ctx : Context) :
    Ends source c (block g ctx) fun b => Region.Read source c (.block b) := by
  refine Ends.require (by rintro ⟨⟩) fun t d le le' lt stands => ?_
  have start := stands.start
  refine (ends_statementsUntil places ctx _).bind fun body e further _ order => ?_
  refine Ends.require (by rintro ⟨⟩) fun _ f later _ _ _ => ?_
  refine Ends.since (by omega) fun stops => ends_pure ?_
  have order : InOrder source t.span.start f.offset body := order.mono (by omega) later
  exact .spanning rfl stands.starts stops (by omega) (by omega) order.all order

end
end Parser
end NameAudit
