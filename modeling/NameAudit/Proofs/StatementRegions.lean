import Mathlib
import NameAudit.Proofs.ExpressionRegions
import NameAudit.Proofs.StatementRules

/-!
Where the rules for statements read their regions, and with them all rules of the grammar. Every region of a
program that the parser accepts is sound (`parse_spans`).
-/
namespace NameAudit

open Cursor (Boundary ofSource)
open Scan (front token)
open Region (Lies AllLie InOrder)
open Relation (ReflTransGen)

/-- The statements of a block stand one after the other. -/
theorem Region.Lies.order {source : List Char} {lo hi : Nat} {span : Span} {body : List Stmt}
    (lies : (Region.block (.mk span body)).Lies source lo hi) : InOrder source lo hi body :=
  ⟨fun _ member => lies.inside _ (List.mem_map_of_mem member),
    lies.sound.here.increasing.imp fun apart => apart.2⟩

namespace Parser

/-- A statement form that lies between two offsets, whatever comment is before it. -/
def BareStatement.Lies (source : List Char) (lo hi : Nat) (b : BareStatement) : Prop :=
  ∀ doc, (Region.stmt (.mk b.span doc b.form)).Lies source lo hi

/-- A statement form that a parser reads between two positions. -/
abbrev BareStatement.Read (source : List Char) (c : Cursor) (b : BareStatement) (d : Cursor) : Prop :=
  b.Lies source (front c) d.offset

section
variable {source : List Char} {g : Grammar} {c : Cursor} {lo start : Nat}

/-- A form that begins at an offset. -/
theorem ends_formSince (starts : (ofSource source).Boundary start) (after : lo ≤ start)
    (some : start < c.offset) {form : StmtForm} (all : AllLie source start c.offset form.regions)
    (plain : ∀ span doc, (Region.stmt (.mk span doc form)).statements = []) :
    Ends source c (formSince start form) fun b d => b.Lies source lo d.offset := by
  refine Ends.since (Nat.le_of_lt some) fun stops => ends_pure fun doc => ?_
  refine .spanning rfl starts stops after some all ?_
  rw [plain]
  exact .nil

/-! ### Declarations -/

theorem ends_declarators (places : g.Places source) (ctx : Context) :
    Ends source c (declarators g ctx) fun ds d =>
      front c < d.offset ∧ Filled source Declarator.regions (front c) ds d := by
  refine ends_loop (Filled source Declarator.regions (front c)) .nil fun ds d _ le' filled => ?_
  refine (places.pattern ctx).bind fun p e further _ lies => ?_
  have after := lies.after
  have some := lies.some
  have before := lies.before
  refine (ends_initializer places ctx).bind fun value f later _ inside => ?_
  have declarator : AllLie source (front d) f.offset (Declarator.mk p value).regions :=
    .cons (lies.mono (Nat.le_refl _) later) (inside.mono (by omega) (Nat.le_refl _))
  have more := filled.concat (by omega) declarator le'
  refine Ends.eat (by rintro ⟨⟩) (fun h last _ _ => ?_) ?_
  · exact ends_pure (more.mono (Nat.le_refl _) last)
  · exact ends_pure ⟨by omega, more⟩

theorem ends_declaration (places : g.Places source) (ctx : Context) :
    Ends source c (declaration g ctx) fun read =>
      Region.Read source c (.declaration read.1 read.2) := by
  refine Ends.take fun t d _ le' _ stands => ?_
  have start := stands.start
  refine (ends_declarators places ctx).bind ?_
  rintro ds e _ - ⟨lt, filled⟩
  refine Ends.since (by omega) fun stops => ends_pure ?_
  exact .spanning rfl stands.starts stops (by omega) (by omega)
    (.flatMap (filled.mono (by omega) (Nat.le_refl _))) .nil

theorem ends_variableStatement (places : g.Places source) (ctx : Context) (mode : DeclarationMode) :
    Ends source c (variableStatement g ctx mode) (BareStatement.Read source c) := by
  refine (ends_declaration places ctx).bind fun read d _ _ lies => ?_
  refine (runs_semicolon (w := .alone source)).ends.bind fun _ e further _ _ => ends_pure fun doc => ?_
  exact (lies.mono (Nat.le_refl _) further).again rfl (fun y child => lies.sound.lies child) rfl

/-- A declaration of a function that begins at an offset. -/
theorem ends_functionStatement (places : g.Places source) (starts : (ofSource source).Boundary start)
    (after : lo ≤ start) (begins : start ≤ front c) (isAsync : Bool) :
    Ends source c (functionStatement g start isAsync) fun b d => b.Lies source lo d.offset := by
  refine Ends.require (by rintro ⟨⟩) fun _ d _ le' _ _ => ?_
  refine (runs_eat (w := .alone source)).ends.bind fun isGenerator e _ _ _ => ?_
  refine Ends.identifier fun name t f _ _ _ _ named => ?_
  refine (ends_functionRest places starts (by omega) isAsync isGenerator).bind
    fun func h further _ lies => ?_
  have some : start < h.offset := Nat.lt_of_le_of_lt lies.after (lies.some.trans_le lies.before)
  exact ends_formSince starts after some (.cons (named.mono (by omega) further) (.single lies))
    fun _ _ => rfl

theorem ends_classStatement (places : g.Places source) (ctx : Context) :
    Ends source c (classStatement g ctx) (BareStatement.Read source c) := by
  refine Ends.take fun t d _ le' _ stands => ?_
  have start := stands.start
  refine Ends.identifier fun name u e _ _ _ _ named => ?_
  refine (ends_classRest places ctx).bind ?_
  rintro ⟨base, members⟩ f further - ⟨lt, all⟩
  exact ends_formSince stands.starts (by omega) (by omega)
    (.cons (named.mono (by omega) further) (all.mono (by omega) (Nat.le_refl _))) fun _ _ => rfl

/-! ### Conditions and loops -/

theorem ends_ifStatement (places : g.Places source) (ctx : Context) :
    Ends source c (ifStatement g ctx) (BareStatement.Read source c) := by
  refine Ends.take fun t d _ le' _ stands => ?_
  have start := stands.start
  refine (ends_parenthesised places ctx).bind fun test e _ _ first => ?_
  refine (places.statement ctx).bind fun consequent f _ _ second => ?_
  have after := second.after
  have some := second.some
  have before := second.before
  refine Ends.eat (by rintro ⟨⟩) (fun h _ _ _ => ?_) ?_
  · refine (places.statement ctx).bind fun alternate j _ _ third => ?_
    exact ends_formSince stands.starts (by omega) (by omega)
      (.cons (first.mono (by omega) (by omega)) (.cons (second.mono (by omega) (by omega))
        (.single (third.mono (by omega) (Nat.le_refl _))))) fun _ _ => rfl
  · exact ends_formSince stands.starts (by omega) (by omega)
      (.cons (first.mono (by omega) (by omega)) (.single (second.mono (by omega) (Nat.le_refl _))))
      fun _ _ => rfl

theorem ends_whileStatement (places : g.Places source) (ctx : Context) :
    Ends source c (whileStatement g ctx) (BareStatement.Read source c) := by
  refine Ends.take fun t d _ le' _ stands => ?_
  have start := stands.start
  refine (ends_parenthesised places ctx).bind fun condition e _ _ first => ?_
  refine (places.statement ctx).bind fun body f _ _ second => ?_
  have after := second.after
  have some := second.some
  have before := second.before
  exact ends_formSince stands.starts (by omega) (by omega)
    (.cons (first.mono (by omega) (by omega)) (.single (second.mono (by omega) (Nat.le_refl _))))
    fun _ _ => rfl

theorem ends_doStatement (places : g.Places source) (ctx : Context) :
    Ends source c (doStatement g ctx) (BareStatement.Read source c) := by
  refine Ends.take fun t d _ le' _ stands => ?_
  have start := stands.start
  refine (places.statement ctx).bind fun body e _ _ first => ?_
  refine Ends.require (by rintro ⟨⟩) fun _ f _ _ _ _ => ?_
  refine (ends_parenthesised places ctx).bind fun condition h _ _ second => ?_
  have after := second.after
  have some := second.some
  have before := second.before
  refine (runs_eat (w := .alone source)).ends.bind fun _ j _ _ _ => ?_
  exact ends_formSince stands.starts (by omega) (by omega)
    (.cons (first.mono (by omega) (by omega)) (.single (second.mono (by omega) (by omega))))
    fun _ _ => rfl

theorem ends_forInit (places : g.Places source) (ctx : Context) :
    Ends source c (forInit g ctx) fun init => Region.AllRead source c init.regions := by
  have declared (mode : DeclarationMode) :
      Ends source c (declaration g ctx >>= fun x => pure (ForInit.vars x.1 mode x.2)) fun init =>
        Region.AllRead source c init.regions :=
    (ends_declaration places ctx).bind fun read d _ _ lies => ends_pure (.single lies)
  refine Ends.look fun t d ahead _ => ?_
  split
  · exact ends_pure .nil
  · exact declared .var
  · exact declared .const
  · refine (runs_startsLet (w := .alone source) ahead).ends.bind ?_
    rintro isLet e - - ⟨rfl, -⟩
    split
    · exact declared .letMode
    · exact (ends_expression places ctx).bind fun e f _ _ lies => ends_pure (.single lies)

/-- What a loop assigns lies where it was read. -/
theorem ends_forHead {init : ForInit} (all : AllLie source lo c.offset init.regions) (next : Token) :
    Ends source c (forHead init next) fun head d => AllLie source lo d.offset head.regions := by
  unfold forHead
  split
  · exact ends_pure (.single all.head.inside.head)
  · exact ends_failAt
  · exact Ends.ofExcept fun target read => ends_pure (.single (Expr.toTarget_lies read all.head))
  · exact ends_unexpected

theorem ends_expressionUnless (places : g.Places source) (ctx : Context) (stop : TokenKind) :
    Ends source c (expressionUnless g ctx stop) fun e =>
      Region.AllRead source c (Expr.optionalRegions e) := by
  refine Ends.look fun t d _ _ => ?_
  split
  · exact ends_pure .nil
  · exact (ends_expression places ctx).bind fun e f _ _ lies => ends_pure (.single lies)

/-- A loop over keys or elements that begins at an offset, from the word that tells which. -/
theorem ends_forEachRest (places : g.Places source) (ctx : Context)
    (starts : (ofSource source).Boundary start) (after : lo ≤ start) (begins : start < c.offset)
    (isOf isAwait : Bool) {init : ForInit} (all : AllLie source start c.offset init.regions)
    (next : Token) :
    Ends source c (forEachRest g ctx start isOf isAwait init next) fun b d =>
      b.Lies source lo d.offset := by
  have ahead := Scan.offset_le_front c
  refine Ends.take fun _ d le le' _ _ => ?_
  refine (ends_forHead (all.mono (Nat.le_refl _) le) next).bind fun head e _ _ head_lies => ?_
  refine Ends.join (Q := fun subject => Region.Read source e (.expr subject))
    (fun _ => places.assignment ctx) (fun _ => ends_expression places ctx) fun subject f _ _ lies => ?_
  refine Ends.require (by rintro ⟨⟩) fun _ h _ _ _ _ => ?_
  refine (places.statement ctx).bind fun body i _ _ last => ?_
  refine ends_formSince starts after (by omega) ?_ fun _ _ => rfl
  refine (head_lies.mono (Nat.le_refl _) (by omega)).append (.cons ?_ (.single ?_))
  · exact lies.mono (by omega) (by omega)
  · exact last.mono (by omega) (Nat.le_refl _)

/-- A loop of three parts that begins at an offset, from the semicolon after the first part. -/
theorem ends_forLoopRest (places : g.Places source) (ctx : Context)
    (starts : (ofSource source).Boundary start) (after : lo ≤ start) (begins : start < c.offset)
    {init : ForInit} (all : AllLie source start c.offset init.regions) :
    Ends source c (forLoopRest g ctx start init) fun b d => b.Lies source lo d.offset := by
  have ahead := Scan.offset_le_front c
  refine Ends.require (by rintro ⟨⟩) fun _ d _ _ _ _ => ?_
  refine (ends_expressionUnless places ctx _).bind fun condition e _ _ first => ?_
  refine Ends.require (by rintro ⟨⟩) fun _ f _ _ _ _ => ?_
  refine (ends_expressionUnless places ctx _).bind fun update h _ _ second => ?_
  refine Ends.require (by rintro ⟨⟩) fun _ i _ _ _ _ => ?_
  refine (places.statement ctx).bind fun body j _ _ last => ?_
  refine ends_formSince starts after (by omega) ?_ fun _ _ => rfl
  refine (all.mono (Nat.le_refl _) (by omega)).append (.append ?_ (.append ?_ (.single ?_)))
  · exact first.mono (by omega) (by omega)
  · exact second.mono (by omega) (by omega)
  · exact last.mono (by omega) (Nat.le_refl _)

theorem ends_forStatement (places : g.Places source) (ctx : Context) :
    Ends source c (forStatement g ctx) (BareStatement.Read source c) := by
  refine Ends.take fun t d _ le' _ stands => ?_
  have start := stands.start
  have rest (isAwait : Bool) (e : Cursor) (further : front d ≤ front e) :
      Ends source e
        (do
          let _ ← require (.punct .parenOpen)
          let init ← forInit g ctx.forbidIn
          let next ← peek
          let isOf := next.isWord "of"
          if isAwait && !isOf then unexpected next "`of`"
          else if isOf || next.kind == .word .inWord then
            forEachRest g ctx t.span.start isOf isAwait init next
          else forLoopRest g ctx t.span.start init) (BareStatement.Read source c) := by
    refine Ends.require (by rintro ⟨⟩) fun _ f _ _ lt _ => ?_
    refine (ends_forInit places _).bind fun init h _ _ all => ?_
    have all : AllLie source t.span.start h.offset init.regions := all.mono (by omega) (Nat.le_refl _)
    refine Ends.look fun next _ _ _ => ?_
    dsimp only
    split
    · exact ends_unexpected
    split
    · exact ends_forEachRest places ctx stands.starts (by omega) (by omega) _ _ all next
    · exact ends_forLoopRest places ctx stands.starts (by omega) (by omega) all
  refine Ends.look fun await _ _ _ => ?_
  dsimp only
  split
  · exact Ends.take fun _ e _ further _ _ => rest _ e further
  · exact rest _ d (Nat.le_refl _)

/-! ### Jumps -/

section
variable {t : Token} {d : Cursor}

theorem ends_returnStatement (places : g.Places source) (ctx : Context)
    (ahead : token .operator c = .ok (t, d)) (more : t.kind ≠ .eof) :
    Ends source c (returnStatement g ctx) (BareStatement.Read source c) := by
  refine Ends.takeAhead ahead more fun _ le' lt stands => ?_
  have start := stands.start
  have finish (value : Option Expr) (e : Cursor) (further : d.offset ≤ e.offset)
      (inside : AllLie source (front d) e.offset (Expr.optionalRegions value)) :
      Ends source e (semicolon >>= fun _ => formSince t.span.start (.returns value))
        (BareStatement.Read source c) := by
    refine (runs_semicolon (w := .alone source)).ends.bind fun _ f later _ _ => ?_
    exact ends_formSince stands.starts (by omega) (by omega) (inside.mono (by omega) later) fun _ _ => rfl
  refine (runs_endsHere (w := .alone source)).ends.bind fun ends e further further' _ => ?_
  split
  · exact finish none e further .nil
  · refine (ends_expression places ctx).bind fun value f later _ lies => ?_
    exact finish (some value) f (by omega) (.single (lies.mono further' (Nat.le_refl _)))

theorem ends_throwStatement (places : g.Places source) (ctx : Context) :
    Ends source c (throwStatement g ctx) (BareStatement.Read source c) := by
  refine Ends.take fun t d _ le' _ stands => ?_
  have start := stands.start
  refine Ends.look fun u e _ _ => ?_
  split
  · exact ends_failAt
  · refine (ends_expression places ctx).bind fun value f _ _ lies => ?_
    have after := lies.after
    have some := lies.some
    have before := lies.before
    refine (runs_semicolon (w := .alone source)).ends.bind fun _ h later _ _ => ?_
    exact ends_formSince stands.starts (by omega) (by omega) (.single (lies.mono (by omega) later))
      fun _ _ => rfl

theorem ends_jumpStatement {form : Option String → StmtForm}
    (none : ∀ label, (form label).regions = [])
    (plain : ∀ label span doc, (Region.stmt (.mk span doc (form label))).statements = [])
    (ahead : token .operator c = .ok (t, d)) (more : t.kind ≠ .eof) :
    Ends source c (jumpStatement form) (BareStatement.Read source c) := by
  refine Ends.takeAhead ahead more fun _ _ lt stands => ?_
  have start := stands.start
  have finish (label : Option String) (e : Cursor) (further : d.offset ≤ e.offset) :
      Ends source e (semicolon >>= fun _ => formSince t.span.start (form label))
        (BareStatement.Read source c) := by
    refine (runs_semicolon (w := .alone source)).ends.bind fun _ f later _ _ => ?_
    exact ends_formSince stands.starts (by omega) (by omega) (by rw [none]; exact .nil) (plain label)
  refine (runs_endsHere (w := .alone source)).ends.bind fun ends e further _ _ => ?_
  split
  · exact finish .none e further
  · exact Ends.identifier fun label u f later _ _ _ _ => finish (some label) f (by omega)

end

/-! ### Branches -/

theorem ends_branchBody (places : g.Places source) (ctx : Context) :
    Ends source c (branchBody g ctx) fun body d => InOrder source (front c) d.offset body := by
  refine ends_loop (fun body d => InOrder source (front c) d.offset body) .nil fun body d _ le' order => ?_
  refine Ends.look fun t e _ _ => ?_
  split
  · exact ends_pure order
  · exact (places.statement ctx).bind fun s e _ _ lies => ends_pure (inOrder_concat order lies le')

theorem ends_branchTest (places : g.Places source) (ctx : Context) (t : Token) :
    Ends source c (branchTest g ctx t) fun test => Region.AllRead source c (Expr.optionalRegions test) := by
  unfold branchTest
  split
  · refine Ends.take fun _ d _ le' _ _ => ?_
    exact (ends_expression places ctx).bind fun e f _ _ lies =>
      ends_pure (.single (lies.mono le' (Nat.le_refl _)))
  · exact Ends.take fun _ d _ _ _ _ => ends_pure .nil
  · exact ends_unexpected

theorem ends_branches (places : g.Places source) (ctx : Context) :
    Ends source c (branches g ctx) fun bs => Region.AllRead source c (bs.map .branch) := by
  let each (b : Branch) : List Region := [.branch b]
  refine (ends_loop (Filled source each (front c)) .nil fun read d _ le' filled => ?_).mono
    (Q := Filled source each (front c)) fun bs d _ _ filled =>
      .map fun b member => (filled b member).head
  refine Ends.eat (by rintro ⟨⟩) (fun e further _ _ => ends_pure (filled.mono (Nat.le_refl _) further)) ?_
  refine Ends.look fun t _ _ stands => ?_
  have start := stands.start
  refine (ends_branchTest places ctx t).bind fun test e _ _ first => ?_
  refine Ends.require (by rintro ⟨⟩) fun _ f _ _ lt _ => ?_
  refine (ends_branchBody places ctx).bind fun body h _ _ order => ?_
  refine Ends.since (by omega) fun stops => ends_pure ?_
  have order : InOrder source t.span.start h.offset body := order.mono (by omega) (Nat.le_refl _)
  refine filled.concat (f := each) (by omega) (.single ?_) le'
  exact .spanning rfl stands.starts stops (by omega) (by omega)
    ((first.mono (by omega) (by omega)).append order.all) order

theorem ends_switchStatement (places : g.Places source) (ctx : Context) :
    Ends source c (switchStatement g ctx) (BareStatement.Read source c) := by
  refine Ends.take fun t d _ le' _ stands => ?_
  have start := stands.start
  refine (ends_parenthesised places ctx).bind fun subject e _ _ first => ?_
  refine Ends.require (by rintro ⟨⟩) fun _ f _ _ lt _ => ?_
  refine (ends_branches places ctx).bind fun bs h _ _ all => ?_
  exact ends_formSince stands.starts (by omega) (by omega)
    (.cons (first.mono (by omega) (by omega)) (all.mono (by omega) (Nat.le_refl _))) fun _ _ => rfl

/-! ### Handlers -/

theorem ends_handlerParam (places : g.Places source) (ctx : Context) :
    Ends source c (handlerParam g ctx) fun param =>
      Region.AllRead source c (Pattern.optionalRegions param) := by
  refine Ends.eat (by rintro ⟨⟩) (fun d _ le' _ => ?_) (ends_pure .nil)
  refine (places.pattern ctx).bind fun p e _ _ lies => ?_
  exact Ends.require (by rintro ⟨⟩) fun _ f later _ _ _ => ends_pure (.single (lies.mono le' later))

theorem ends_handler (places : g.Places source) (ctx : Context) :
    Ends source c (handler g ctx) fun h => Region.AllRead source c (h.toList.map .handler) := by
  refine Ends.look fun t d ahead stands => ?_
  have start := stands.start
  split
  · refine Ends.take fun _ e _ le' _ _ => ?_
    refine (ends_handlerParam places ctx).bind fun param f _ _ first => ?_
    refine (ends_block places ctx).bind ?_
    rintro ⟨span, body⟩ h further - lies
    have after := lies.after
    have some := lies.some
    have before := lies.before
    have order : InOrder source t.span.start h.offset body :=
      lies.order.mono (by omega) (Nat.le_refl _)
    refine Ends.since (by omega) fun stops => ends_pure (.single ?_)
    exact .spanning rfl stands.starts stops (by omega) (by omega)
      ((first.mono (by omega) further).append order.all) order
  · exact ends_pure .nil

theorem ends_tryStatement (places : g.Places source) (ctx : Context) :
    Ends source c (tryStatement g ctx) (BareStatement.Read source c) := by
  refine Ends.take fun t d _ le' _ stands => ?_
  have start := stands.start
  refine (ends_block places ctx).bind fun body e _ _ first => ?_
  have after := first.after
  have some := first.some
  have before := first.before
  refine (ends_handler places ctx).bind fun caught f _ _ second => ?_
  have finish (finalizer : Option Block) (h : Cursor) (further : f.offset ≤ h.offset)
      (last : AllLie source (front f) h.offset (finalizer.toList.map .block)) :
      Ends source h
        (do
          let span ← since t.span.start
          if caught.isNone && finalizer.isNone then failAt .bareTry span none
          else return ⟨span, .attempt body caught finalizer⟩) (BareStatement.Read source c) := by
    refine Ends.since (by omega) fun stops => ?_
    split
    · exact ends_failAt
    · refine ends_pure fun doc => .spanning rfl stands.starts stops (by omega) (by omega) ?_ .nil
      refine .cons (first.mono (by omega) (by omega)) (.append ?_ ?_)
      · exact second.mono (by omega) further
      · exact last.mono (by omega) (Nat.le_refl _)
  refine Ends.eat (by rintro ⟨⟩) (fun h _ further' _ => ?_) ?_
  · refine (ends_block places ctx).bind fun finalizer i _ _ last => ?_
    exact finish (.some finalizer) i (by omega) (.single (last.mono further' (Nat.le_refl _)))
  · exact finish none f (Nat.le_refl _) .nil

/-! ### Statements -/

theorem ends_withStatement (places : g.Places source) (ctx : Context) :
    Ends source c (withStatement g ctx) (BareStatement.Read source c) := by
  refine Ends.take fun t d _ le' _ stands => ?_
  have start := stands.start
  refine (ends_parenthesised places ctx).bind fun owner e _ _ first => ?_
  refine (places.statement ctx).bind fun body f _ _ second => ?_
  have after := second.after
  have some := second.some
  have before := second.before
  exact ends_formSince stands.starts (by omega) (by omega)
    (.cons (first.mono (by omega) (by omega)) (.single (second.mono (by omega) (Nat.le_refl _))))
    fun _ _ => rfl

theorem ends_labelledStatement (places : g.Places source) (ctx : Context) :
    Ends source c (labelledStatement g ctx) (BareStatement.Read source c) := by
  refine Ends.identifier fun name t d _ le' lt stands _ => ?_
  have start := stands.start
  refine Ends.require (by rintro ⟨⟩) fun _ e _ _ _ _ => ?_
  refine (places.statement ctx).bind fun body f _ _ lies => ?_
  exact ends_formSince stands.starts (by omega) (by omega)
    (.single (lies.mono (by omega) (Nat.le_refl _))) fun _ _ => rfl

theorem ends_expressionStatement (places : g.Places source) (ctx : Context)
    (starts : (ofSource source).Boundary start) (begins : start = front c) :
    Ends source c (expressionStatement g ctx start) (BareStatement.Read source c) := by
  refine (ends_expression places ctx).bind fun e d _ _ lies => ?_
  have after := lies.after
  have some := lies.some
  have before := lies.before
  refine (runs_semicolon (w := .alone source)).ends.bind fun _ f further _ _ => ?_
  exact ends_formSince starts (by omega) (by omega) (.single (lies.mono (by omega) further)) fun _ _ => rfl

section
variable {t : Token} {d : Cursor}

theorem ends_wordStatement (places : g.Places source) (ctx : Context)
    (ahead : token .operand c = .ok (t, d)) (kind : t.kind = .identifier)
    (stands : Scan.Stands source c t d) :
    Ends source c (wordStatement g ctx t) (BareStatement.Read source c) := by
  have start := stands.start
  refine (runs_startsLet (w := .alone source) ahead).ends.bind ?_
  rintro isLet e - - ⟨rfl, -⟩
  split
  · exact ends_variableStatement places ctx .letMode
  refine (runs_startsAsyncFunction (w := .alone source) ahead).ends.bind ?_
  rintro isFunction e - - rfl
  split
  · exact Ends.take fun _ f _ le' _ _ =>
      ends_functionStatement places stands.starts (by omega) (by omega) true
  refine (runs_peekSecond (w := .alone source) ahead kind).ends.bind ?_
  rintro next e - - rfl
  split
  · exact ends_labelledStatement places ctx
  · exact ends_expressionStatement places ctx stands.starts start

theorem ends_bareStatement (places : g.Places source) (ctx : Context)
    (ahead : token .operand c = .ok (t, d)) (stands : Scan.Stands source c t d) :
    Ends source c (bareStatement g ctx t) (BareStatement.Read source c) := by
  have start := stands.start
  -- The token is the same where an operator is expected, unless it is a slash.
  have plain (kind : t.kind.isSlash = false) : token .operator c = .ok (t, d) :=
    Scan.token_expecting ahead kind
  unfold bareStatement
  split
  · refine (ends_block places ctx).bind ?_
    rintro ⟨span, body⟩ e - - lies
    refine ends_pure fun doc => .ofStatements lies.starts lies.stops lies.after lies.some lies.before
      (fun y child => lies.sound.lies child) ?_
    exact Region.Lies.order ⟨Nat.le_refl _, lies.some, Nat.le_refl _, lies.sound⟩
  · exact ends_variableStatement places ctx .var
  · exact ends_variableStatement places ctx .const
  · exact ends_functionStatement places stands.starts (by omega) (by omega) false
  · exact ends_classStatement places ctx
  · exact ends_ifStatement places ctx
  · exact ends_whileStatement places ctx
  · exact ends_doStatement places ctx
  · exact ends_forStatement places ctx
  next kind =>
    exact ends_returnStatement places ctx (plain (by rw [kind]; rfl)) (by rw [kind]; rintro ⟨⟩)
  · exact ends_throwStatement places ctx
  next kind =>
    exact ends_jumpStatement (fun _ => rfl) (fun _ _ _ => rfl) (plain (by rw [kind]; rfl))
      (by rw [kind]; rintro ⟨⟩)
  next kind =>
    exact ends_jumpStatement (fun _ => rfl) (fun _ _ _ => rfl) (plain (by rw [kind]; rfl))
      (by rw [kind]; rintro ⟨⟩)
  · exact ends_switchStatement places ctx
  · exact ends_tryStatement places ctx
  · exact ends_withStatement places ctx
  next kind =>
    have more : t.kind ≠ .eof := by rw [kind]; rintro ⟨⟩
    refine Ends.takeAhead (plain (by rw [kind]; rfl)) more fun _ _ _ _ => ?_
    refine (runs_semicolon (w := .alone source)).ends.bind fun _ e further _ _ => ends_pure fun doc => ?_
    exact ((stands.lies more).mono (Nat.le_refl _) further).again rfl .nil rfl
  next kind =>
    have more : t.kind ≠ .eof := by rw [kind]; rintro ⟨⟩
    refine Ends.takeAhead (plain (by rw [kind]; rfl)) more fun _ _ _ _ => ends_pure fun doc => ?_
    exact (stands.lies more).again rfl .nil rfl
  next kind => exact ends_wordStatement places ctx ahead kind stands
  · exact ends_expressionStatement places ctx stands.starts start

end

/-- A statement with the comment directly before it. -/
theorem ends_statementRule (places : g.Places source) (ctx : Context) :
    Ends source c (statementRule g ctx) fun s => Region.Read source c (.stmt s) := by
  refine Ends.look fun t d ahead stands => ?_
  exact (ends_bareStatement places _ ahead stands).bind fun b e _ _ lies => ends_pure (lies _)

end
end Parser

/-! ### The whole grammar -/

theorem Grammar.places_ofDepth (source : List Char) (depth : Nat) : (ofDepth depth).Places source := by
  induction depth with
  | zero => constructor <;> intros <;> rintro s a t - ⟨⟩
  | succ depth ih =>
    exact {
      statement := fun ctx => Parser.ends_statementRule ih ctx
      assignment := fun ctx => Parser.ends_assignmentRule ih ctx
      binary := fun ctx level => Parser.ends_binaryRule ih ctx level
      unary := fun ctx => Parser.ends_unaryRule ih ctx
      leftHand := fun ctx => Parser.ends_leftHandRule ih ctx
      construction := fun ctx => Parser.ends_constructionRule ih ctx
      pattern := fun ctx => Parser.ends_patternRule ih ctx }

/-- A script covers its text. -/
theorem Region.script_sound {source : List Char} {lo hi : Nat} {doc : Option DocComment}
    {body : List Stmt} (order : InOrder source lo hi body) :
    (Region.script ⟨⟨0, Text.byteLength source⟩, doc, body⟩).AllSound source := by
  have inside : ∀ y ∈ body.map Region.stmt, y.Lies source lo hi := order.all
  refine .intro ⟨Nat.zero_le _, Nat.le_refl _, Boundary.here _, ?_, fun y child => ?_,
    fun y child => (inside y child).some, order.increasing⟩ fun y child => (inside y child).sound
  · exact Cursor.boundary_ofSource_iff.mpr ⟨source, [], (List.append_nil _).symm, rfl⟩
  · exact ⟨Nat.zero_le _, (inside y child).sound.here.stop_le⟩

theorem Parser.ends_script {source : List Char} {g : Grammar} {c : Cursor} (places : g.Places source) :
    Ends source c (script g) fun script _ => (Region.script script).AllSound source := by
  rintro s script t stands call
  have ends : Ends source c
      (ofExcept (Scan.leadingDocs s.source) >>= fun docs => statementsUntil g {} .eof >>= fun body =>
        pure ⟨⟨0, Text.byteLength s.source⟩, docs.find? (·.isFileOverview), body⟩)
      fun script _ => (Region.script script).AllSound source := by
    refine Ends.ofExcept fun docs _ => ?_
    refine (ends_statementsUntil places {} .eof).bind fun body d _ _ order => ends_pure ?_
    rw [stands.text]
    exact Region.script_sound order
  exact ends s script t stands call

/-- Every region of an accepted program is sound: its span is one of the text and begins and ends between
characters, what is directly inside of it lies within its span, and the statements that it lists stand
one after the other. -/
theorem parse_spans {source : String} {script : Script} {x : Region} (read : parse source = .ok script)
    (inside : ReflTransGen Region.Has (.script script) x) : x.Sound source.toList := by
  unfold parse at read
  dsimp only at read
  split at read
  next answer t call =>
    cases read
    have places := Grammar.places_ofDepth source.toList (8 * (source.toList.length + 1))
    obtain ⟨_, _, _, _, sound⟩ := Parser.ends_script places _ script t (ParserState.at_ofSource _) call
    exact sound x inside
  · cases read

/-- A member of an expression in parentheses begins after the parenthesis. -/
theorem parse_spans_member :
    ∃ (script : Script) (x : Region), parse "(a).b;c" = .ok script ∧
      ReflTransGen Region.Has (.script script) x ∧ x.span = ⟨1, 5⟩ ∧ x.Sound "(a).b;c".toList := by
  let e : Expr := .member ⟨1, 5⟩ false (.ident ⟨1, 2⟩ "a") "b"
  let s : Stmt := .mk ⟨0, 6⟩ none (.expr e)
  let s' : Stmt := .mk ⟨6, 7⟩ none (.expr (.ident ⟨6, 7⟩ "c"))
  have read : parse "(a).b;c" = .ok ⟨⟨0, 7⟩, none, [s, s']⟩ := by
    cbv
  have first : Region.Has (.script ⟨⟨0, 7⟩, none, [s, s']⟩) (.stmt s) := List.mem_cons_self
  have second : Region.Has (.stmt s) (.expr e) := List.mem_cons_self
  have inside : ReflTransGen Region.Has (.script ⟨⟨0, 7⟩, none, [s, s']⟩) (.expr e) :=
    .tail (.single first) second
  exact ⟨_, _, read, inside, rfl, parse_spans read inside⟩

end NameAudit
