import NameAudit.Proofs.ExpressionRules
import NameAudit.Proofs.FunctionRegions

/-!
Where the rules for expressions read their regions. What goes on from an expression begins where the
expression does, which may be after a parenthesis that is no part of it.
-/
namespace NameAudit

open Cursor (Boundary ofSource)
open Scan (front token)
open Region (Lies AllLie)

namespace Parser

section
variable {source : List Char} {g : Grammar} {c : Cursor} {lo : Nat}

/-! ### Members and calls -/

theorem ends_indexed (places : g.Places source) (ctx : Context) {owner : Expr} (isOptional : Bool)
    (before : (Region.expr owner).Lies source lo c.offset) :
    Ends source c (indexed g ctx owner isOptional) fun e d => (Region.expr e).Lies source lo d.offset := by
  have after : lo ≤ owner.span.start := before.after
  have some : owner.span.start < owner.span.stop := before.some
  have stop : owner.span.stop ≤ c.offset := before.before
  have ahead := Scan.offset_le_front c
  refine Ends.require (by rintro ⟨⟩) fun _ d le le' _ _ => ?_
  refine (ends_expression places _).bind fun k e further _ lies => ?_
  refine Ends.require (by rintro ⟨⟩) fun _ f later _ _ _ => ?_
  refine Ends.since (by omega) fun stops => ends_pure ?_
  have owner : (Region.expr owner).Lies source owner.span.start f.offset :=
    ⟨Nat.le_refl _, before.some, stop.trans (by omega), before.sound⟩
  exact .spanning rfl before.starts stops after (by omega)
    (.cons owner (.single (lies.mono (by omega) later))) .nil

theorem ends_substitutions (places : g.Places source) (ctx : Context) (first : TokenKind) :
    Ends source c (loop (substitutionsTurn g ctx) ([], first)) fun es d =>
      Region.AllRead source c (es.map .expr) d := by
  let each (e : Expr) : List Region := [.expr e]
  refine ends_loop (fun read => Filled source each (front c) read.1) .nil fun read d _ le' filled => ?_
  unfold substitutionsTurn
  split
  · refine (ends_expression places _).bind fun e f further _ lies => ?_
    have more := filled.concat (f := each) further (.single lies) le'
    exact (runs_templateRest (w := .alone source)).ends.bind fun next h later _ _ =>
      ends_pure (more.mono (Nat.le_refl _) later)
  · exact ends_pure (.map fun e member => (filled e member).head)

/-- A template after its first piece, and after its tag if it has one. -/
theorem ends_templateExpression (places : g.Places source) (ctx : Context) {first : Token}
    {tag : Option Expr} (here : (Region.name first.span).Lies source lo c.offset)
    (tagged : AllLie source lo c.offset (Expr.optionalRegions tag)) :
    Ends source c (templateExpression g ctx first tag) fun e d =>
      (Region.expr e).Lies source lo d.offset := by
  have ahead := Scan.offset_le_front c
  have finish (start : Nat) (starts : (ofSource source).Boundary start) (after : lo ≤ start)
      (some : start < c.offset) (tagged : AllLie source start c.offset (Expr.optionalRegions tag)) :
      Ends source c
        (loop (substitutionsTurn g ctx) ([], first.kind) >>= fun es =>
          since start >>= fun s => pure (Expr.template s tag es))
        fun e d => (Region.expr e).Lies source lo d.offset := by
    refine (ends_substitutions places ctx _).bind fun es d further _ all => ?_
    refine Ends.since (by omega) fun stops => ends_pure ?_
    exact .spanning rfl starts stops after (by omega)
      ((tagged.mono (Nat.le_refl _) further).append (all.mono (by omega) (Nat.le_refl _))) .nil
  cases tag with
  | none => exact finish _ here.starts here.after (here.some.trans_le here.before) .nil
  | some e =>
    have lies := tagged.head
    exact finish _ lies.starts lies.after (lies.some.trans_le lies.before)
      (.single ⟨Nat.le_refl _, lies.some, lies.before, lies.sound⟩)

/-- What follows an expression after `?.`, in a chain that begins at an offset. -/
theorem ends_optionalLink (places : g.Places source) (ctx : Context)
    (starts : (ofSource source).Boundary lo) {e : Expr}
    (before : (Region.expr e).Lies source lo c.offset) :
    Ends source c (optionalLink g ctx lo e) fun e d => (Region.expr e).Lies source lo d.offset := by
  have some : lo < c.offset := Nat.lt_of_le_of_lt before.after (before.some.trans_le before.before)
  have ahead := Scan.offset_le_front c
  refine Ends.look fun t _ _ _ => ?_
  split
  · refine (ends_arguments places ctx).bind ?_
    rintro args d further - ⟨-, all⟩
    refine Ends.since (by omega) fun stops => ends_pure ?_
    refine .spanning rfl starts stops (Nat.le_refl _) (by omega)
      (.cons (before.mono (Nat.le_refl _) further) (.map fun arg member => ?_)) .nil
    exact (all arg member).mono (by omega) (Nat.le_refl _)
  · exact ends_indexed places ctx true before
  · refine (runs_memberName (w := .alone source)).ends.bind fun name d further _ _ => ?_
    refine Ends.since (by omega) fun stops => ends_pure ?_
    exact .spanning rfl starts stops (Nat.le_refl _) (by omega)
      (.single (before.mono (Nat.le_refl _) further)) .nil

/-- A turn of a chain that begins at an offset. -/
theorem ends_chainTurn (places : g.Places source) (ctx : Context) (calls : Bool)
    (starts : (ofSource source).Boundary lo) {e : Expr}
    (before : (Region.expr e).Lies source lo c.offset) :
    Ends source c (chainTurn g ctx calls lo e)
      (Going (fun e d => (Region.expr e).Lies source lo d.offset)
        (fun e d => (Region.expr e).Lies source lo d.offset)) := by
  have some : lo < c.offset := Nat.lt_of_le_of_lt before.after (before.some.trans_le before.before)
  have ahead := Scan.offset_le_front c
  have template (t : Token) (d : Cursor) (further : c.offset ≤ d.offset)
      (here : Region.Read source c (.name t.span) d) :
      Ends source d (templateExpression g ctx t (.some e) >>= fun e => pure (Turn.again e))
        (Going (fun e d => (Region.expr e).Lies source lo d.offset)
          (fun e d => (Region.expr e).Lies source lo d.offset)) := by
    refine (ends_templateExpression places ctx (here.mono (by omega) (Nat.le_refl _)) ?_).bind
      fun e f _ _ lies => ends_pure lies
    exact .single (before.mono (Nat.le_refl _) further)
  refine Ends.look fun t _ ahead stands => ?_
  split
  next kind =>
    refine Ends.takeAhead ahead (by rw [kind]; rintro ⟨⟩) fun le _ _ _ => ?_
    refine (runs_memberName (w := .alone source)).ends.bind fun name d further _ _ => ?_
    refine Ends.since (by omega) fun stops => ends_pure ?_
    exact .spanning rfl starts stops (Nat.le_refl _) (by omega)
      (.single (before.mono (Nat.le_refl _) (by omega))) .nil
  next kind =>
    refine Ends.takeAhead ahead (by rw [kind]; rintro ⟨⟩) fun le _ _ _ => ?_
    exact (ends_optionalLink places ctx starts (before.mono (Nat.le_refl _) le)).bind
      fun e f _ _ lies => ends_pure lies
  · exact (ends_indexed places ctx false before).bind fun e f _ _ lies => ends_pure lies
  · split
    · refine (ends_arguments places ctx).bind ?_
      rintro args d further - ⟨-, all⟩
      refine Ends.since (by omega) fun stops => ends_pure ?_
      refine .spanning rfl starts stops (Nat.le_refl _) (by omega)
        (.cons (before.mono (Nat.le_refl _) further) (.map fun arg member => ?_)) .nil
      exact (all arg member).mono (by omega) (Nat.le_refl _)
    · exact ends_pure before
  next kind =>
    have more : t.kind ≠ .eof := by rw [kind]; rintro ⟨⟩
    exact Ends.takeAhead ahead more fun le _ _ stands => template t _ le (stands.lies more)
  next kind =>
    have more : t.kind ≠ .eof := by rw [kind]; rintro ⟨⟩
    exact Ends.takeAhead ahead more fun le _ _ stands => template t _ le (stands.lies more)
  · exact ends_pure before

theorem ends_chain (places : g.Places source) (ctx : Context) (calls : Bool) {first : Expr}
    (before : (Region.expr first).Lies source lo c.offset) :
    Ends source c (chain g ctx calls first) fun e d => (Region.expr e).Lies source lo d.offset := by
  have after : lo ≤ first.span.start := before.after
  refine (ends_loop (fun e d => (Region.expr e).Lies source first.span.start d.offset) ?_
    fun e d _ _ lies => ends_chainTurn places ctx calls before.starts lies).mono
      fun e d _ _ lies => lies.mono after (Nat.le_refl _)
  exact ⟨Nat.le_refl _, before.some, before.before, before.sound⟩

/-! ### Arrow functions and what looks like them -/

/-- A name before an arrow, as a parameter. -/
theorem namedParam_lies {hi : Nat} {span : Span} (here : (Region.name span).Lies source lo hi)
    (name : String) : ∀ p ∈ [namedParam name span], (Region.param p).Lies source lo hi := by
  intro p member
  obtain rfl := List.mem_singleton.mp member
  exact Param.ofParts_lies false (here.again rfl .nil rfl) .nil

/-- A call of `async` or an arrow function, after the name. -/
theorem ends_asyncCall (places : g.Places source) (ctx : Context) {async : Token}
    (here : (Region.name async.span).Lies source lo c.offset) :
    Ends source c (asyncCall g ctx async) fun e d => (Region.expr e).Lies source lo d.offset := by
  have starts : (ofSource source).Boundary async.span.start := here.starts
  have after : lo ≤ async.span.start := here.after
  have some : async.span.start < c.offset := here.some.trans_le here.before
  have ahead := Scan.offset_le_front c
  refine (ends_arguments places ctx).bind ?_
  rintro args d further further' ⟨lt, all⟩
  have all : ∀ arg ∈ args, (Region.arg arg).Lies source async.span.start d.offset :=
    fun arg member => (all arg member).mono (by omega) (Nat.le_refl _)
  refine Ends.look fun _ _ _ _ => ?_
  split
  · refine Ends.ofExcept fun params read => ?_
    exact (ends_arrowRest places starts (by omega) (argsToParams_lie read all) true).mono
      fun e f _ _ lies => lies.mono after (Nat.le_refl _)
  · refine Ends.since (by omega) fun stops => ends_pure ?_
    have callee : (Region.expr (.ident async.span "async")).Lies source async.span.start d.offset :=
      Lies.again (x := .name async.span)
        ⟨Nat.le_refl _, here.some, here.before.trans further, here.sound⟩ rfl .nil rfl
    exact .spanning rfl starts stops after (by omega) (.cons callee (.map all)) .nil

theorem ends_identifierOrArrow (places : g.Places source) {t : Token}
    (here : (Region.name t.span).Lies source lo c.offset) (next : Token) :
    Ends source c (identifierOrArrow g t next) fun e d => (Region.expr e).Lies source lo d.offset := by
  have starts : (ofSource source).Boundary t.span.start := here.starts
  have some : t.span.start < c.offset := here.some.trans_le here.before
  have ahead := Scan.offset_le_front c
  refine (ends_nameOf t).bind ?_
  rintro name d - - rfl
  split
  · have inside := namedParam_lies ⟨Nat.le_refl _, here.some, here.before, here.sound⟩ name
    exact (ends_arrowRest places starts (by omega) inside false).mono
      fun e f _ _ lies => lies.mono here.after (Nat.le_refl _)
  · exact ends_pure (here.again rfl .nil rfl)

theorem ends_identifierRule (places : g.Places source) (ctx : Context) {t : Token}
    (here : (Region.name t.span).Lies source lo c.offset) :
    Ends source c (identifierRule g ctx t) fun e d => (Region.expr e).Lies source lo d.offset := by
  have starts : (ofSource source).Boundary t.span.start := here.starts
  have some : t.span.start < c.offset := here.some.trans_le here.before
  have ahead := Scan.offset_le_front c
  refine Ends.look fun next _ _ _ => ?_
  split
  · split
    · refine Ends.take fun _ d _ le' _ _ => ?_
      exact (ends_functionExpression places starts (by omega) true).mono
        fun e f _ _ lies => lies.mono here.after (Nat.le_refl _)
    · refine Ends.identifier fun name u d _ le' _ _ named => ?_
      have named : (Region.name u.span).Lies source t.span.start d.offset :=
        named.mono (by omega) (Nat.le_refl _)
      exact (ends_arrowRest places starts (by omega) (namedParam_lies named name) true).mono
        fun e f _ _ lies => lies.mono here.after (Nat.le_refl _)
    · exact ends_asyncCall places ctx here
    · exact ends_identifierOrArrow places here next
  · exact ends_identifierOrArrow places here next

/-- The region of an item in parentheses. -/
def ParenItem.regions : ParenItem → List Region
  | .expr e => [.expr e]
  | .rest p => [.pattern p]

theorem ParenItem.exprs_lie {hi : Nat} {items : List ParenItem}
    (all : ∀ x ∈ items, AllLie source lo hi x.regions) :
    ∀ e ∈ exprs items, (Region.expr e).Lies source lo hi := by
  induction items with
  | nil => exact List.forall_mem_nil _
  | cons x items ih =>
    have later := ih fun y member => all y (List.mem_cons_of_mem _ member)
    cases x with
    | expr e => exact List.forall_mem_cons.mpr ⟨(all _ List.mem_cons_self).head, later⟩
    | rest p => exact later

theorem ParenItem.rests_lie {hi : Nat} {items : List ParenItem}
    (all : ∀ x ∈ items, AllLie source lo hi x.regions) :
    ∀ p ∈ rests items, (Region.param p).Lies source lo hi := by
  induction items with
  | nil => exact List.forall_mem_nil _
  | cons x items ih =>
    have later := ih fun y member => all y (List.mem_cons_of_mem _ member)
    cases x with
    | expr e => exact later
    | rest p =>
      have here := all _ List.mem_cons_self
      exact List.forall_mem_cons.mpr ⟨Param.rest_lies here.head, later⟩

theorem ends_parenItem (places : g.Places source) (ctx : Context) :
    Ends source c (parenItem g ctx) fun x => Region.AllRead source c x.1.regions := by
  refine Ends.eat (by rintro ⟨⟩) (fun d _ le' _ => ?_) ?_
  · exact (places.pattern _).bind fun p e _ _ lies =>
      ends_pure (.single (lies.mono le' (Nat.le_refl _)))
  · exact (places.assignment _).bind fun e f _ _ lies => ends_pure (.single lies)

/-- An expression in parentheses or an arrow function, after the parenthesis. -/
theorem ends_parenOrArrow (places : g.Places source) (ctx : Context)
    (starts : (ofSource source).Boundary lo) (begins : lo < c.offset) :
    Ends source c (parenOrArrow g ctx lo) fun e d => (Region.expr e).Lies source lo d.offset := by
  have ahead := Scan.offset_le_front c
  refine (ends_items (f := ParenItem.regions) fun d => ends_parenItem places ctx).bind
    fun read d _ le' filled => ?_
  have filled : Filled source ParenItem.regions lo read.items d :=
    filled.mono (by omega) (Nat.le_refl _)
  have exprs := ParenItem.exprs_lie filled
  refine Ends.look fun _ _ _ _ => ?_
  split
  · refine Ends.ofExcept fun params again => ?_
    refine ends_arrowRest places starts (by omega) ?_ false
    exact List.forall_mem_append.mpr ⟨exprsToParams_lie again exprs, ParenItem.rests_lie filled⟩
  · split
    next first others same _ _ =>
      rw [same] at exprs
      obtain ⟨first, others⟩ := List.forall_mem_cons.mp exprs
      exact ends_pure (joinByComma_lies first others)
    · exact Ends.since (by omega) fun _ => ends_failAt

/-! ### Primary expressions -/

/-- An array literal after its bracket. -/
theorem ends_arrayLiteral (places : g.Places source) (ctx : Context)
    (starts : (ofSource source).Boundary lo) (begins : lo < c.offset) :
    Ends source c (arrayLiteral g ctx lo) fun e d => (Region.expr e).Lies source lo d.offset := by
  have ahead := Scan.offset_le_front c
  refine Ends.bind (Q := Filled source Element.regions (front c)) ?_ fun elements d _ _ filled => ?_
  · refine ends_loop (Filled source Element.regions (front c)) .nil fun read d _ le' filled => ?_
    have finish (x : Element) (e : Cursor) (further : d.offset ≤ e.offset)
        (inside : AllLie source (front d) e.offset x.regions) :
        Ends source e (afterItem .bracketClose (Turn.again (read ++ [x])) (.done (read ++ [x])))
          (Going (Filled source Element.regions (front c)) (Filled source Element.regions (front c))) := by
      have more := filled.concat further inside le'
      exact ends_afterItem (fun f later => more.mono (Nat.le_refl _) later) fun f later =>
        more.mono (Nat.le_refl _) later
    refine Ends.look fun t _ _ _ => ?_
    split
    · exact Ends.take fun _ e further _ _ _ => ends_pure (filled.mono (Nat.le_refl _) further)
    · exact Ends.take fun _ e further _ _ _ => ends_pure (filled.concat further .nil le')
    · split
      · refine Ends.take fun _ e _ further' _ _ => ?_
        refine (places.assignment _).bind fun x f _ _ lies => ?_
        exact finish (.spread x) f (by omega) (.single (lies.mono further' (Nat.le_refl _)))
      · refine (places.assignment _).bind fun x f further _ lies => ?_
        exact finish (.item x) f further (.single lies)
  · refine Ends.since (by omega) fun stops => ends_pure ?_
    refine .spanning rfl starts stops (Nat.le_refl _) (by omega) (.flatMap fun x member => ?_) .nil
    exact (filled x member).mono (by omega) (Nat.le_refl _)

theorem ends_primary (places : g.Places source) (ctx : Context) :
    Ends source c (primary g ctx) fun e => Region.Read source c (.expr e) := by
  refine Ends.take fun t d _ le' _ stands => ?_
  have start := stands.start
  have stop := stands.stop
  have some (more : t.kind ≠ .eof) : t.span.start < d.offset := stop ▸ stands.some more
  have leaf {e : Expr} (more : t.kind ≠ .eof) (span : e.span = t.span) (none : e.regions = []) :
      Ends source d (pure e) fun e => Region.Read source c (.expr e) := by
    refine ends_pure ((stands.lies more).again span ?_ rfl)
    rw [Region.children, none]
    exact .nil
  have begun {p : Parser Expr}
      (ends : Ends source d p fun e f => (Region.expr e).Lies source t.span.start f.offset) :
      Ends source d p fun e => Region.Read source c (.expr e) :=
    ends.mono fun e f _ _ lies => lies.mono (by omega) (Nat.le_refl _)
  split
  next kind => exact ends_identifierRule places ctx (stands.lies (by rw [kind]; rintro ⟨⟩))
  next kind => exact leaf (by rw [kind]; rintro ⟨⟩) rfl rfl
  next kind => exact leaf (by rw [kind]; rintro ⟨⟩) rfl rfl
  next kind => exact leaf (by rw [kind]; rintro ⟨⟩) rfl rfl
  next kind => exact leaf (by rw [kind]; rintro ⟨⟩) rfl rfl
  next kind => exact leaf (by rw [kind]; rintro ⟨⟩) rfl rfl
  next kind => exact leaf (by rw [kind]; rintro ⟨⟩) rfl rfl
  next kind => exact leaf (by rw [kind]; rintro ⟨⟩) rfl rfl
  next kind => exact leaf (by rw [kind]; rintro ⟨⟩) rfl rfl
  next kind =>
    refine (ends_stringOf t).bind ?_
    rintro value e - - rfl
    exact leaf (by rw [kind]; rintro ⟨⟩) rfl rfl
  next kind => exact ends_templateExpression places ctx (stands.lies (by rw [kind]; rintro ⟨⟩)) .nil
  next kind => exact ends_templateExpression places ctx (stands.lies (by rw [kind]; rintro ⟨⟩)) .nil
  · exact begun (ends_functionExpression places stands.starts (by omega) false)
  · exact begun (ends_classExpression places ctx stands.starts (by omega))
  next kind => exact begun (ends_parenOrArrow places ctx stands.starts (some (by rw [kind]; rintro ⟨⟩)))
  next kind => exact begun (ends_arrayLiteral places ctx stands.starts (some (by rw [kind]; rintro ⟨⟩)))
  next kind => exact begun (ends_objectLiteral places ctx stands.starts (some (by rw [kind]; rintro ⟨⟩)))
  · exact ends_unexpected

theorem ends_chainStart (places : g.Places source) (ctx : Context) :
    Ends source c (chainStart g ctx) fun e => Region.Read source c (.expr e) := by
  refine Ends.look fun t _ _ _ => ?_
  split
  · exact places.construction ctx
  · exact ends_primary places ctx

/-- Members, calls and constructions. -/
theorem ends_leftHandRule (places : g.Places source) (ctx : Context) :
    Ends source c (leftHandRule g ctx) fun e => Region.Read source c (.expr e) :=
  (ends_chainStart places ctx).bind fun _ _ _ _ lies => ends_chain places ctx true lies

/-- A construction, or `new.target`. -/
theorem ends_constructionRule (places : g.Places source) (ctx : Context) :
    Ends source c (constructionRule g ctx) fun e => Region.Read source c (.expr e) := by
  refine Ends.take fun t d _ le' _ stands => ?_
  have start := stands.start
  refine Ends.eat (by rintro ⟨⟩) (fun e _ _ lt => ?_) ?_
  · refine Ends.take fun u f further _ _ _ => ?_
    split
    · refine Ends.since (by omega) fun stops => ends_pure ?_
      exact .spanning rfl stands.starts stops (by omega) (by omega) .nil .nil
    · exact ends_unexpected
  · refine (ends_chainStart places ctx).bind fun first e _ _ lies => ?_
    refine (ends_chain places ctx false lies).bind fun callee f _ _ lies => ?_
    have finish (args : List Arg) (h : Cursor) (later : f.offset ≤ h.offset)
        (all : ∀ arg ∈ args, (Region.arg arg).Lies source (front d) h.offset) :
        Ends source h (since t.span.start >>= fun s => pure (Expr.construct s callee args))
          fun e => Region.Read source c (.expr e) := by
      have after := lies.after
      have some := lies.some
      have before := lies.before
      refine Ends.since (by omega) fun stops => ends_pure ?_
      refine .spanning rfl stands.starts stops (by omega) (by omega)
        (.cons (lies.mono (by omega) later) (.map fun arg member => ?_)) .nil
      exact (all arg member).mono (by omega) (Nat.le_refl _)
    refine Ends.look fun _ _ _ _ => ?_
    split
    · refine (ends_arguments places ctx).bind ?_
      rintro args h later - ⟨-, all⟩
      exact finish args h later fun arg member => (all arg member).mono (by omega) (Nat.le_refl _)
    · exact finish [] f (Nat.le_refl _) (List.forall_mem_nil _)

/-! ### Operators -/

/-- Operators with one operand. -/
theorem ends_unaryRule (places : g.Places source) (ctx : Context) :
    Ends source c (unaryRule g ctx) fun e => Region.Read source c (.expr e) := by
  refine Ends.look fun t d ahead _ => ?_
  split
  next op is =>
    have more := unaryOperator?_ne_eof is
    refine Ends.takeAhead ahead more fun _ le' _ stands => ?_
    refine (places.unary ctx).bind fun operand e further _ lies => ends_pure ?_
    have sign : Region.Read source c (.name t.span) e := (stands.lies more).mono (Nat.le_refl _) further
    have operand := lies.mono le' (Nat.le_refl _)
    exact sign.join operand rfl (.single (operand.right _)) rfl
  · refine (places.leftHand ctx).bind fun operand e _ le' lies => ?_
    refine Ends.look fun u f ahead _ => ?_
    split
    · exact ends_pure lies
    next op is =>
      have more := stepOperator?_ne_eof is
      refine Ends.takeAhead ahead more fun further _ _ stands => ?_
      refine Ends.ofExcept fun target read => ends_pure ?_
      have target := Expr.toTarget_lies read (lies.mono (Nat.le_refl _) further)
      have sign : Region.Read source c (.name u.span) f := (stands.lies more).mono le' (Nat.le_refl _)
      exact target.join sign rfl (.single (target.left _)) rfl

/-- Binary operators that bind tighter than a level. -/
theorem ends_binaryRule (places : g.Places source) (ctx : Context) (level : Nat) :
    Ends source c (binaryRule g ctx level) fun e => Region.Read source c (.expr e) := by
  refine (places.unary ctx).bind fun first d _ le' lies => ?_
  refine ends_loop (fun e => Region.Read source c (.expr e)) lies fun left e _ further' before => ?_
  refine Ends.look fun t f ahead _ => ?_
  split
  · exact ends_pure before
  next op is =>
    have more := BinaryOperator.ne_eof (Option.filter_eq_some_iff.mp is).1
    refine Ends.takeAhead ahead more fun later _ _ _ => ?_
    refine (places.binary ctx _).bind fun right h last _ after => ends_pure ?_
    have before : Region.Read source c (.expr left) h := before.mono (Nat.le_refl _) (by omega)
    have after : Region.Read source c (.expr right) h := after.mono (by omega) (Nat.le_refl _)
    exact before.join after rfl (.cons (before.left _) (.single (after.right _))) rfl

theorem ends_conditional (places : g.Places source) (ctx : Context) :
    Ends source c (conditional g ctx) fun e => Region.Read source c (.expr e) := by
  refine (places.binary ctx 0).bind fun test d _ le' first => ?_
  refine Ends.eat (by rintro ⟨⟩) (fun e further _ _ => ?_) (ends_pure first)
  refine (places.assignment _).bind fun consequent f _ _ middle => ?_
  refine Ends.require (by rintro ⟨⟩) fun _ h _ _ _ _ => ?_
  refine (places.assignment ctx).bind fun alternate j _ _ last => ends_pure ?_
  -- The middle part lies between the two that the span joins.
  have opens : test.span.stop ≤ e.offset := first.before.trans further
  have closes : h.offset ≤ alternate.span.start := (Scan.offset_le_front h).trans last.after
  have some : test.span.start < test.span.stop := first.some
  have some' : alternate.span.start < alternate.span.stop := last.some
  have ahead := Scan.offset_le_front e
  have first : Region.Read source c (.expr test) j := first.mono (Nat.le_refl _) (by omega)
  have last : Region.Read source c (.expr alternate) j := last.mono (by omega) (Nat.le_refl _)
  refine first.join last rfl (.cons (first.left _) (.cons ?_ (.single (last.right _)))) rfl
  exact middle.mono ((Nat.min_le_left _ _).trans (show test.span.start ≤ front e by omega))
    ((show f.offset ≤ alternate.span.stop by omega).trans (Nat.le_max_right _ _))

theorem ends_yieldExpression {t : Token} {d : Cursor} (places : g.Places source) (ctx : Context)
    (ahead : token .operand c = .ok (t, d)) (word : t.isWord "yield" = true) :
    Ends source c (yieldExpression g ctx) fun e => Region.Read source c (.expr e) := by
  have kind := isIdentifier_of_isWord word
  have read : token .operator c = .ok (t, d) := Scan.token_expecting ahead (by rw [kind]; rfl)
  refine Ends.takeAhead read (by rw [kind]; rintro ⟨⟩) fun _ le' lt stands => ?_
  have start := stands.start
  refine (runs_eat (w := .alone source)).ends.bind fun isDelegate e _ _ _ => ?_
  have finish (argument : Option Expr) (f : Cursor) (later : e.offset ≤ f.offset)
      (inside : AllLie source (front e) f.offset (Expr.optionalRegions argument)) :
      Ends source f (since t.span.start >>= fun s => pure (Expr.yield s isDelegate argument))
        fun e => Region.Read source c (.expr e) := by
    refine Ends.since (by omega) fun stops => ends_pure ?_
    exact .spanning rfl stands.starts stops (by omega) (by omega)
      (inside.mono (by omega) (Nat.le_refl _)) .nil
  refine Ends.look fun _ _ _ _ => ?_
  split
  · exact finish none e (Nat.le_refl _) .nil
  · refine (places.assignment ctx).bind fun argument f later _ lies => ?_
    exact finish (some argument) f later (.single lies)

/-- Assignments, which group to the right. -/
theorem ends_assignmentRule (places : g.Places source) (ctx : Context) :
    Ends source c (assignmentRule g ctx) fun e => Region.Read source c (.expr e) := by
  refine Ends.look fun t _ ahead _ => ?_
  split
  next word => exact ends_yieldExpression places ctx ahead (Bool.and_eq_true_iff.mp word).2
  · refine (ends_conditional places ctx).bind fun left e _ le' lies => ?_
    refine Ends.look fun u f ahead _ => ?_
    split
    · exact ends_pure lies
    next op is =>
      refine Ends.takeAhead ahead (AssignmentOperator.ne_eof is) fun further _ _ _ => ?_
      refine Ends.ofExcept fun target read => ?_
      refine (places.assignment ctx).bind fun value h later _ after => ends_pure ?_
      have target := Expr.toTarget_lies read (lies.mono (Nat.le_refl _) (show e.offset ≤ h.offset by omega))
      have value : Region.Read source c (.expr value) h := after.mono (by omega) (Nat.le_refl _)
      exact target.join value rfl (.cons (target.left _) (.single (value.right _))) rfl

end
end Parser
end NameAudit
