import NameAudit.Parser.Expression
import NameAudit.Proofs.FunctionRules

/-!
How the rules for expressions run.
-/
namespace NameAudit

open Scan (token)

/-! ### Operators are not the end of the text -/

theorem BinaryOperator.ne_eof {kind : TokenKind} {op : BinaryOperator} (is : ofToken? kind = some op) :
    kind ≠ .eof := by
  rintro rfl
  cases is

theorem AssignmentOperator.ne_eof {kind : TokenKind} {op : AssignmentOperator}
    (is : ofToken? kind = some op) : kind ≠ .eof := by
  rintro rfl
  cases is

namespace Parser

theorem unaryOperator?_ne_eof {ctx : Context} {t : Token} {op : UnaryOperator}
    (is : unaryOperator? ctx t = some op) : t.kind ≠ .eof := by
  intro ended
  have word : t.isWord "await" = false := by rw [Token.isWord, ended]; rfl
  rw [unaryOperator?, ended, word, Bool.and_false] at is
  cases is

theorem stepOperator?_ne_eof {t : Token} {op : StepOperator} (is : stepOperator? t = some op) :
    t.kind ≠ .eof := by
  intro ended
  rw [stepOperator?, ended] at is
  split at is <;> cases is

section
variable {w : Continued} {P : Node → Prop} {g g' : Grammar} {n : Nat} {c : Cursor}

/-! ### Members and calls -/

theorem runs_memberName :
    Runs w c memberName memberName fun _ d => d.rest.length < c.rest.length := by
  refine Runs.take fun t d _ read => ?_
  split
  next kind => exact runs_pure (Scan.token_length_lt read (by rw [kind]; rintro ⟨⟩))
  next kind =>
    have lt := Scan.token_length_lt read (by rw [kind]; rintro ⟨⟩)
    refine (runs_nameOf ⟨_, _, _, read⟩ kind).mono ?_
    rintro name e - ⟨rfl, -⟩
    exact lt
  next kind => exact runs_pure (Scan.token_length_lt read (by rw [kind]; rintro ⟨⟩))
  · exact runs_unexpected

/-- An expression read between two positions, which is whole when the expression that it goes on from is. -/
def Extends (P : Node → Prop) (c : Cursor) (e extended : Expr) (d : Cursor) : Prop :=
  d.rest.length < c.rest.length ∧ ((Node.expr e).Whole P → (Node.expr extended).Whole P)

theorem runs_indexed (law : Law P) (serves : g.Serves w P g' n) (ctx : Context) (owner : Expr)
    (isOptional : Bool) (fits : 8 * c.rest.length ≤ n) :
    Runs w c (indexed g ctx owner isOptional) (indexed g' ctx owner isOptional)
      (Extends P c owner) := by
  refine Runs.require (by rintro ⟨⟩) fun _ d lt _ _ => ?_
  refine (runs_expression law serves _ (by omega)).bind fun k e _ made => ?_
  have shorter := made.1
  refine Runs.require (by rintro ⟨⟩) fun _ f lt' _ _ => Runs.since ?_
  exact runs_pure ⟨by omega, fun whole => law.whole rfl rfl fun _ => .cons whole (.single made.2)⟩

/-- A turn of the substitutions of a template. -/
theorem runs_substitutionsTurn (law : Law P) (serves : g.Serves w P g' n) (ctx : Context)
    (read : List Expr × TokenKind) (fits : 8 * c.rest.length + 5 ≤ n) :
    Runs w c (substitutionsTurn g ctx read) (substitutionsTurn g' ctx read)
      (Keeps (fun read _ => ∀ e ∈ read.1, (Node.expr e).Whole P)
        (fun es _ => ∀ e ∈ es, (Node.expr e).Whole P) read c) := by
  unfold substitutionsTurn
  split
  · refine (runs_expression law serves _ fits).bind fun e d _ made => ?_
    have shorter := made.1
    exact runs_templateRest.bind fun next f _ lt =>
      runs_pure ⟨fun all => forall_mem_concat all made.2, by omega⟩
  · exact runs_pure fun all => all

theorem runs_templateExpression (law : Law P) (serves : g.Serves w P g' n) (ctx : Context)
    (first : Token) (tag : Option Expr) (fits : 8 * c.rest.length + 5 ≤ n) :
    Runs w c (templateExpression g ctx first tag) (templateExpression g' ctx first tag)
      fun e _ => (∀ a, AllParts (Node.Whole P) (Expr.optionalParts a tag)) → (Node.expr e).Whole P := by
  refine Runs.bind (Q := fun es _ => ∀ e ∈ es, (Node.expr e).Whole P)
    (runs_loop_keeps (fun read _ => ∀ e ∈ read.1, (Node.expr e).Whole P) (List.forall_mem_nil _)
      fun read d le => runs_substitutionsTurn law serves ctx read (by omega)) ?_
  intro substitutions d _ all
  refine Runs.since (runs_pure fun whole => law.whole rfl rfl fun a => (whole a).append ?_)
  intro x member
  obtain ⟨e, here, rfl⟩ := List.mem_map.mp member
  exact all e here

theorem runs_optionalLink (law : Law P) (serves : g.Serves w P g' n) (ctx : Context) (start : Nat)
    (e : Expr) (fits : 8 * c.rest.length ≤ n) :
    Runs w c (optionalLink g ctx start e) (optionalLink g' ctx start e) (Extends P c e) := by
  refine Runs.look fun t _ _ => ?_
  split
  · refine (runs_arguments serves ctx fits).bind ?_
    rintro args d - ⟨lt, all⟩
    exact Runs.since (runs_pure ⟨lt, fun whole => law.whole rfl rfl fun a => .cons whole (all a)⟩)
  · exact runs_indexed law serves ctx e true fits
  · refine runs_memberName.bind fun name d _ lt => Runs.since ?_
    exact runs_pure ⟨lt, fun whole => law.whole rfl rfl fun _ => .single whole⟩

/-- A turn of a chain, after any expression. -/
theorem runs_chainTurn (law : Law P) (serves : g.Serves w P g' n) (ctx : Context) (calls : Bool)
    (start : Nat) (e : Expr) (fits : 8 * c.rest.length ≤ n) :
    Runs w c (chainTurn g ctx calls start e) (chainTurn g' ctx calls start e) (KeepsWhole P e c) := by
  have template (t : Token) (d : Cursor) (lt : d.rest.length < c.rest.length) :
      Runs w d (templateExpression g ctx t (some e) >>= fun e => pure (Turn.again e))
        (templateExpression g' ctx t (some e) >>= fun e => pure (Turn.again e)) (KeepsWhole P e c) := by
    refine (runs_templateExpression law serves ctx t (some e) (by omega)).bind fun e f le tagged => ?_
    exact runs_pure ⟨fun whole => tagged fun _ => .single whole, by omega⟩
  refine Runs.look fun t d ahead => ?_
  split
  next kind =>
    refine Runs.takeAhead ahead (by rw [kind]; rintro ⟨⟩) fun lt => ?_
    refine runs_memberName.bind fun name f _ lt' => Runs.since ?_
    exact runs_pure ⟨fun whole => law.whole rfl rfl fun _ => .single whole, by omega⟩
  next kind =>
    refine Runs.takeAhead ahead (by rw [kind]; rintro ⟨⟩) fun lt => ?_
    refine (runs_optionalLink law serves ctx _ e (by omega)).bind fun e f _ made => ?_
    have shorter := made.1
    exact runs_pure ⟨made.2, by omega⟩
  · refine (runs_indexed law serves ctx e false fits).bind fun e f _ made => ?_
    exact runs_pure ⟨made.2, made.1⟩
  · split
    · refine (runs_arguments serves ctx fits).bind ?_
      rintro args f - ⟨lt, all⟩
      exact Runs.since (runs_pure ⟨fun whole => law.whole rfl rfl fun a => .cons whole (all a), lt⟩)
    · exact runs_pure fun whole => whole
  next kind =>
    exact Runs.takeAhead ahead (by rw [kind]; rintro ⟨⟩) (template t d)
  next kind =>
    exact Runs.takeAhead ahead (by rw [kind]; rintro ⟨⟩) (template t d)
  · exact runs_pure fun whole => whole

theorem runs_chain (law : Law P) (serves : g.Serves w P g' n) (ctx : Context) (calls : Bool)
    {first : Expr} (whole : (Node.expr first).Whole P) (fits : 8 * c.rest.length ≤ n) :
    Runs w c (chain g ctx calls first) (chain g' ctx calls first)
      fun e _ => (Node.expr e).Whole P :=
  runs_loop_keeps (fun e _ => (Node.expr e).Whole P) whole fun e d le =>
    runs_chainTurn law serves ctx calls _ e (by omega)

/-! ### Arrow functions and what looks like them -/

/-- A name before an arrow is a whole parameter. -/
theorem all_namedParam (law : Law P) (name : String) (span : Span) (a : Surroundings) :
    AllParts (Node.All P) ([namedParam name span].flatMap (·.parts a)) :=
  .single (.intro (law.declared _ rfl) fun _ => .nil)

theorem runs_asyncCall (law : Law P) (serves : g.Serves w P g' n) (ctx : Context) (async : Token)
    (fits : 8 * c.rest.length ≤ n) :
    Runs w c (asyncCall g ctx async) (asyncCall g' ctx async) fun e _ => (Node.expr e).Whole P := by
  refine (runs_arguments serves ctx fits).bind ?_
  rintro args d - ⟨lt, whole⟩
  refine Runs.look fun _ _ _ => ?_
  split
  · refine (runs_ofExcept (Q := fun params e => e = d ∧ argsToParams args = .ok params)
      (argsToParams_refuses args) fun params read => ⟨rfl, read⟩).bind ?_
    rintro params e - ⟨rfl, read⟩
    exact (runs_arrowRest law serves _ (.called args params whole read)
      (law.argsToParams read whole) (by omega)).mono fun _ _ _ made => made.2
  · refine Runs.since (runs_pure (law.whole rfl rfl fun a => .cons ?_ (whole a)))
    exact law.whole rfl rfl fun _ => .nil

theorem runs_identifierOrArrow (law : Law P) (serves : g.Serves w P g' n) {t : Token} (given : Scan.Given t)
    (kind : t.kind = .identifier) (next : Token) (fits : 8 * c.rest.length ≤ n) :
    Runs w c (identifierOrArrow g t next) (identifierOrArrow g' t next)
      fun e _ => (Node.expr e).Whole P := by
  refine (runs_nameOf given kind).bind ?_
  rintro name d - ⟨rfl, -⟩
  split
  · exact (runs_arrowRest law serves _ (.named false name t.span)
      (all_namedParam law name t.span) fits).mono fun _ _ _ made => made.2
  · exact runs_pure (law.whole rfl rfl fun _ => .nil)

theorem runs_identifierRule (law : Law P) (serves : g.Serves w P g' n) (ctx : Context) {t : Token}
    (given : Scan.Given t) (kind : t.kind = .identifier) (fits : 8 * c.rest.length ≤ n) :
    Runs w c (identifierRule g ctx t) (identifierRule g' ctx t) fun e _ => (Node.expr e).Whole P := by
  refine Runs.look fun next _ _ => ?_
  split
  · split
    · refine Runs.take fun _ d le _ => ?_
      exact (runs_functionExpression law serves _ true (by omega)).mono fun _ _ _ made => made.2
    · refine runs_identifier.bind ?_
      rintro ⟨name, span⟩ d - ⟨lt, -⟩
      exact (runs_arrowRest law serves _ (.named true name span) (all_namedParam law name span)
        (by omega)).mono fun _ _ _ made => made.2
    · exact runs_asyncCall law serves ctx t fits
    · exact runs_identifierOrArrow law serves given kind next fits
  · exact runs_identifierOrArrow law serves given kind next fits

theorem whole_joinByComma (law : Law P) {first : Expr} {rest : List Expr}
    (whole : (Node.expr first).Whole P) (all : ∀ e ∈ rest, (Node.expr e).Whole P) :
    (Node.expr (joinByComma first rest)).Whole P := by
  induction rest generalizing first with
  | nil => exact whole
  | cons e es ih =>
    refine ih (law.whole rfl rfl fun _ => .cons whole (.single (all e List.mem_cons_self)))
      fun x later => all x (List.mem_cons_of_mem _ later)

/-- What stands in parentheses is whole; only the last item takes the remaining arguments. -/
def ParenItem.Fine (P : Node → Prop) : ParenItem → Bool → Prop
  | .expr e, _ => (Node.expr e).Whole P
  | .rest p, isLast => (Node.pattern p).Whole P ∧ p.Declares ∧ isLast = true

theorem ParenItem.whole_exprs {items : List ParenItem} (fine : ∀ x ∈ items, ∃ isLast, x.Fine P isLast) :
    ∀ e ∈ exprs items, (Node.expr e).Whole P := by
  induction items with
  | nil => exact fun _ member => nomatch member
  | cons x items ih =>
    have later := ih fun y member => fine y (List.mem_cons_of_mem _ member)
    obtain ⟨_, here⟩ := fine x List.mem_cons_self
    cases x with
    | expr e =>
      intro y member
      rcases List.mem_cons.mp member with rfl | member
      · exact here
      · exact later y member
    | rest p => exact later

theorem ParenItem.rests_append (items others : List ParenItem) :
    rests (items ++ others) = rests items ++ rests others := by
  induction items with
  | nil => rfl
  | cons x items ih =>
    cases x with
    | expr e => exact ih
    | rest p => exact congrArg (List.cons _) ih

/-- At most the last item takes the remaining arguments. -/
theorem ParenItem.rests_of_fine {init last : List ParenItem} (before : ∀ x ∈ init, x.Fine P false)
    (final : last = [] ∨ ∃ x isLast, last = [x] ∧ x.Fine P isLast) :
    ∃ rest : Option Pattern,
      rests (init ++ last) = rest.toList.map (fun p => Param.ofParts p true none) ∧
      ∀ p, rest = some p → (Node.pattern p).Whole P ∧ p.Declares := by
  have none : rests init = [] := by
    induction init with
    | nil => rfl
    | cons x init ih =>
      cases x with
      | expr e => exact ih fun y member => before y (List.mem_cons_of_mem _ member)
      | rest p => cases (before _ List.mem_cons_self).2.2
  rw [rests_append, none, List.nil_append]
  rcases final with rfl | ⟨x, _, rfl, fine⟩
  · exact ⟨.none, rfl, by rintro _ ⟨⟩⟩
  · cases x with
    | expr e => exact ⟨.none, rfl, by rintro _ ⟨⟩⟩
    | rest p => exact ⟨some p, rfl, by rintro _ ⟨⟩; exact ⟨fine.1, fine.2.1⟩⟩

/-- What stands in parentheses before an arrow is read again as parameters. -/
theorem ParenItem.readAgain (law : Law P) {init last : List ParenItem} {params : List Param}
    (before : ∀ x ∈ init, x.Fine P false) (final : last = [] ∨ ∃ x isLast, last = [x] ∧ x.Fine P isLast)
    (whole : ∀ e ∈ exprs (init ++ last), (Node.expr e).Whole P)
    (read : exprsToParams (exprs (init ++ last)) = .ok params) :
    ReadAgain P false (params ++ rests (init ++ last)) ∧
      ∀ a, AllParts (Node.All P) ((params ++ rests (init ++ last)).flatMap (·.parts a)) := by
  obtain ⟨rest, same, fine⟩ := rests_of_fine before final
  rw [same]
  refine ⟨.parenthesised _ params rest whole read fun p is => (fine p is).2, fun a => ?_⟩
  rw [List.flatMap_append]
  refine (law.exprsToParams read whole a).append ?_
  cases rest with
  | none => exact .nil
  | some p =>
    rw [Option.toList_some, List.map_singleton, List.flatMap_singleton]
    exact Param.all_ofParts (fine p rfl).1.1 (by rintro _ ⟨⟩) a

theorem runs_parenItem (law : Law P) (serves : g.Serves w P g' n) (ctx : Context)
    (fits : 8 * c.rest.length + 5 ≤ n) :
    Runs w c (parenItem g ctx) (parenItem g' ctx) fun x d =>
      d.rest.length < c.rest.length ∧ x.1.Fine P x.2 := by
  refine Runs.eat (by rintro ⟨⟩) (fun _ d lt _ _ => ?_) (fun _ _ _ _ => ?_)
  · refine (runs_pattern law serves _ (by omega)).bind fun p e _ made => runs_pure ?_
    have shorter := made.1.1
    exact ⟨by omega, made.1.2, made.2, rfl⟩
  · exact (serves.assignment _ fits).bind fun e f _ made => runs_pure ⟨made.1, made.2⟩

theorem runs_parenOrArrow (law : Law P) (serves : g.Serves w P g' n) (ctx : Context) (start : Nat)
    (fits : 8 * c.rest.length + 5 ≤ n) :
    Runs w c (parenOrArrow g ctx start) (parenOrArrow g' ctx start)
      fun e _ => (Node.expr e).Whole P := by
  refine Runs.bind (runs_items (X := ParenItem.Fine P) fun d le =>
    runs_parenItem law serves ctx (by omega)) ?_
  rintro ⟨read, trailing⟩ d - ⟨lt, init, last, same, before, final⟩
  dsimp only at same ⊢
  subst same
  have whole := @ParenItem.whole_exprs P (init ++ last) fun x member => by
    rcases List.mem_append.mp member with here | here
    · exact ⟨false, before x here⟩
    · obtain rfl | ⟨y, isLast, rfl, fine⟩ := final
      · cases here
      · exact ⟨isLast, List.mem_singleton.mp here ▸ fine⟩
  refine Runs.look fun _ _ _ => ?_
  split
  · refine (runs_ofExcept (Q := fun params e => e = d ∧ exprsToParams _ = .ok params)
      (exprsToParams_refuses _) fun params read => ⟨rfl, read⟩).bind ?_
    rintro params e - ⟨rfl, read⟩
    obtain ⟨again, all⟩ := ParenItem.readAgain law before final whole read
    exact (runs_arrowRest law serves _ again all (by omega)).mono fun _ _ _ made => made.2
  · split
    next first others same _ =>
      rw [same] at whole
      exact runs_pure (whole_joinByComma law (whole first List.mem_cons_self)
        fun e later => whole e (List.mem_cons_of_mem _ later))
    · exact Runs.since runs_failAt

/-! ### Primary expressions -/

/-- The elements of an array are whole. -/
def Element.AllWhole (P : Node → Prop) (elements : List Element) : Prop :=
  ∀ a, AllParts (Node.Whole P) (elements.flatMap (·.parts a))

theorem runs_arrayTurn (serves : g.Serves w P g' n) (ctx : Context) (read : List Element)
    (fits : 8 * c.rest.length + 5 ≤ n) :
    Runs w c (arrayTurn g ctx read) (arrayTurn g' ctx read)
      (Keeps (fun read _ => Element.AllWhole P read) (fun read _ => Element.AllWhole P read) read c) := by
  have finish (x : Element) (d : Cursor) (lt : d.rest.length < c.rest.length)
      (here : ∀ a, AllParts (Node.Whole P) (x.parts a)) :
      Runs w d (afterItem .bracketClose (Turn.again (read ++ [x])) (.done (read ++ [x])))
        (afterItem .bracketClose (Turn.again (read ++ [x])) (.done (read ++ [x])))
        (Keeps (fun read _ => Element.AllWhole P read) (fun read _ => Element.AllWhole P read) read c) := by
    have more (whole : Element.AllWhole P read) : Element.AllWhole P (read ++ [x]) :=
      fun a => (whole a).concat (here a)
    refine Runs.eat (by rintro ⟨⟩) (fun _ f lt' _ _ => ?_) (fun _ _ _ _ => ?_)
    · exact runs_pure ⟨more, by omega⟩
    · exact Runs.require (by rintro ⟨⟩) fun _ f lt' _ _ => runs_pure more
  refine Runs.look fun t d ahead => ?_
  split
  · exact Runs.take fun _ _ _ _ => runs_pure fun whole => whole
  next kind =>
    have read : token .operator c = .ok (t, d) := Scan.token_expecting ahead (by rw [kind]; rfl)
    refine Runs.takeAhead read (by rw [kind]; rintro ⟨⟩) fun lt => ?_
    exact runs_pure ⟨fun whole a => (whole a).concat .nil, lt⟩
  · split
    · refine Runs.take fun _ e le _ => ?_
      refine (serves.assignment ctx (by omega)).bind fun x f _ made => ?_
      have shorter := made.1
      exact finish (.spread x) f (by omega) fun _ => .single made.2
    · refine (serves.assignment ctx fits).bind fun x f _ made => ?_
      exact finish (.item x) f made.1 fun _ => .single made.2

theorem runs_arrayItems (serves : g.Serves w P g' n) (ctx : Context)
    (fits : 8 * c.rest.length + 5 ≤ n) :
    Runs w c (arrayItems g ctx) (arrayItems g' ctx) fun elements _ => Element.AllWhole P elements :=
  runs_loop_keeps (fun read _ => Element.AllWhole P read) (fun _ => .nil) fun read d le =>
    runs_arrayTurn serves ctx read (by omega)

theorem runs_arrayLiteral (law : Law P) (serves : g.Serves w P g' n) (ctx : Context) (start : Nat)
    (fits : 8 * c.rest.length + 5 ≤ n) :
    Runs w c (arrayLiteral g ctx start) (arrayLiteral g' ctx start)
      fun e _ => (Node.expr e).Whole P := by
  refine (runs_arrayItems serves _ fits).bind fun elements d _ whole => ?_
  exact Runs.since (runs_pure (law.whole rfl rfl whole))

theorem runs_primary (law : Law P) (serves : g.Serves w P g' n) (ctx : Context)
    (fits : 8 * c.rest.length ≤ n) :
    Runs w c (primary g ctx) (primary g' ctx) fun e => Node.Made P c (.expr e) := by
  refine Runs.take fun t d _ read => ?_
  have made {p p' : Parser Expr} (more : t.kind ≠ .eof)
      (runs : d.rest.length < c.rest.length → Runs w d p p' fun e _ => (Node.expr e).Whole P) :
      Runs w d p p' fun e => Node.Made P c (.expr e) := by
    have lt := Scan.token_length_lt read more
    exact (runs lt).mono fun e f le whole => ⟨by omega, whole⟩
  have leaf {e : Expr} (more : t.kind ≠ .eof) (plain : (Node.expr e).isPlain = true)
      (bare : (Node.expr e).isBare = false) (parts : ∀ a, e.parts a = []) :
      Runs w d (pure e) (pure e) fun e => Node.Made P c (.expr e) :=
    made more fun _ => runs_pure (law.whole plain bare fun a => by
      rw [Node.partsInside, parts]; exact .nil)
  split
  next kind =>
    exact made (by rw [kind]; rintro ⟨⟩) fun lt =>
      runs_identifierRule law serves ctx ⟨_, _, _, read⟩ kind (by omega)
  next kind => exact leaf (by rw [kind]; rintro ⟨⟩) rfl rfl fun _ => rfl
  next kind => exact leaf (by rw [kind]; rintro ⟨⟩) rfl rfl fun _ => rfl
  next kind => exact leaf (by rw [kind]; rintro ⟨⟩) rfl rfl fun _ => rfl
  next kind => exact leaf (by rw [kind]; rintro ⟨⟩) rfl rfl fun _ => rfl
  next kind => exact leaf (by rw [kind]; rintro ⟨⟩) rfl rfl fun _ => rfl
  next kind => exact leaf (by rw [kind]; rintro ⟨⟩) rfl rfl fun _ => rfl
  next kind => exact leaf (by rw [kind]; rintro ⟨⟩) rfl rfl fun _ => rfl
  next kind => exact leaf (by rw [kind]; rintro ⟨⟩) rfl rfl fun _ => rfl
  next kind =>
    refine (runs_stringOf kind).bind ?_
    rintro value e - rfl
    exact leaf (by rw [kind]; rintro ⟨⟩) rfl rfl fun _ => rfl
  next kind =>
    exact made (by rw [kind]; rintro ⟨⟩) fun lt =>
      (runs_templateExpression law serves ctx t none (by omega)).mono fun _ _ _ tagged =>
        tagged fun _ => .nil
  next kind =>
    exact made (by rw [kind]; rintro ⟨⟩) fun lt =>
      (runs_templateExpression law serves ctx t none (by omega)).mono fun _ _ _ tagged =>
        tagged fun _ => .nil
  next kind =>
    exact made (by rw [kind]; rintro ⟨⟩) fun lt =>
      (runs_functionExpression law serves _ false (by omega)).mono fun _ _ _ made => made.2
  next kind =>
    exact made (by rw [kind]; rintro ⟨⟩) fun lt =>
      (runs_classExpression law serves ctx _ (by omega)).mono fun _ _ _ made => made.2
  next kind =>
    exact made (by rw [kind]; rintro ⟨⟩) fun lt => runs_parenOrArrow law serves ctx _ (by omega)
  next kind =>
    exact made (by rw [kind]; rintro ⟨⟩) fun lt => runs_arrayLiteral law serves ctx _ (by omega)
  next kind =>
    exact made (by rw [kind]; rintro ⟨⟩) fun lt =>
      (runs_objectLiteral law serves ctx _ (by omega)).mono fun _ _ _ made => made.2
  · exact runs_unexpected

theorem runs_chainStart (law : Law P) (serves : g.Serves w P g' n) (ctx : Context)
    (fits : 8 * c.rest.length + 1 ≤ n) :
    Runs w c (chainStart g ctx) (chainStart g' ctx) fun e => Node.Made P c (.expr e) := by
  refine Runs.look fun t d ahead => ?_
  split
  next word => exact serves.construction ctx fits ahead (beq_iff_eq.mp word)
  · exact runs_primary law serves ctx (by omega)

/-- Members, calls and constructions. -/
theorem runs_leftHandRule (law : Law P) (serves : g.Serves w P g' n) (ctx : Context)
    (fits : 8 * c.rest.length + 1 ≤ n) :
    Runs w c (leftHandRule g ctx) (leftHandRule g' ctx) fun e => Node.Made P c (.expr e) := by
  refine (runs_chainStart law serves ctx fits).bind fun first d _ made => ?_
  have shorter := made.1
  refine (runs_chain law serves ctx true made.2 (by omega)).mono fun e f le whole => ?_
  exact ⟨by omega, whole⟩

/-- A construction, or `new.target`, before its word. -/
theorem runs_constructionRule {t : Token} {d : Cursor} (law : Law P) (serves : g.Serves w P g' n)
    (ctx : Context) (fits : 8 * c.rest.length ≤ n) (ahead : token .operand c = .ok (t, d))
    (word : t.kind = .word .newWord) :
    Runs w c (constructionRule g ctx) (constructionRule g' ctx) fun e => Node.Made P c (.expr e) := by
  refine Runs.takeAhead ahead (by rw [word]; rintro ⟨⟩) fun lt => ?_
  refine Runs.eat (by rintro ⟨⟩) (fun _ e lt' _ _ => ?_) (fun _ _ _ _ => ?_)
  · refine Runs.take fun u f le _ => ?_
    split
    · exact Runs.since (runs_pure ⟨by omega, law.whole rfl rfl fun _ => .nil⟩)
    · exact runs_unexpected
  · refine (runs_chainStart law serves ctx (by omega)).bind fun first e _ made => ?_
    have shorter := made.1
    refine (runs_chain law serves ctx false made.2 (by omega)).bind fun callee f le whole => ?_
    have finish (args : List Arg) (h : Cursor) (le' : h.rest.length ≤ f.rest.length)
        (all : ∀ a, AllParts (Node.Whole P) (args.flatMap (·.parts a))) :
        Runs w h (since t.span.start >>= fun s => pure (Expr.construct s callee args))
          (since t.span.start >>= fun s => pure (Expr.construct s callee args))
          fun e => Node.Made P c (.expr e) :=
      Runs.since (runs_pure ⟨by omega, law.whole rfl rfl fun a => .cons whole (all a)⟩)
    refine Runs.look fun _ _ _ => ?_
    split
    · refine (runs_arguments serves ctx (by omega)).bind fun args h le' holds => ?_
      exact finish args h le' holds.2
    · exact finish [] f (Nat.le_refl _) fun _ => .nil

/-! ### Operators -/

/-- Operators with one operand. -/
theorem runs_unaryRule (law : Law P) (serves : g.Serves w P g' n) (ctx : Context)
    (fits : 8 * c.rest.length + 2 ≤ n) :
    Runs w c (unaryRule g ctx) (unaryRule g' ctx) fun e => Node.Made P c (.expr e) := by
  refine Runs.look fun t d ahead => ?_
  split
  next op is =>
    refine Runs.takeAhead ahead (unaryOperator?_ne_eof is) fun lt => ?_
    refine (serves.unary ctx (by omega)).bind fun operand e _ made => runs_pure ?_
    have shorter := made.1
    exact ⟨by omega, law.whole rfl rfl fun _ => .single made.2⟩
  · refine (serves.leftHand ctx (by omega)).bind fun operand e _ made => ?_
    refine Runs.look fun u f ahead => ?_
    split
    · exact runs_pure made
    next op is =>
      refine Runs.takeAhead ahead (stepOperator?_ne_eof is) fun lt => ?_
      refine (runs_ofExcept (Q := fun target h => h = f ∧ operand.toTarget false = .ok target)
        (operand.toTarget_refuses false) fun target read => ⟨rfl, read⟩).bind ?_
      rintro target h - ⟨rfl, read⟩
      have shorter := made.1
      exact runs_pure ⟨by omega, .intro (law.step _ op operand target read)
        fun _ => .single (law.toTarget read made.2.1), rfl⟩

/-- A turn of binary operators, after any left operand. -/
theorem runs_binaryTurn (law : Law P) (serves : g.Serves w P g' n) (ctx : Context) (level : Nat)
    (left : Expr) (fits : 8 * c.rest.length ≤ n) :
    Runs w c (binaryTurn g ctx level left) (binaryTurn g' ctx level left) (KeepsWhole P left c) := by
  refine Runs.look fun t d ahead => ?_
  split
  · exact runs_pure fun whole => whole
  next op is =>
    have more := BinaryOperator.ne_eof (Option.filter_eq_some_iff.mp is).1
    refine Runs.takeAhead ahead more fun lt => ?_
    refine (serves.binary ctx _ (by omega)).bind fun right e _ made => runs_pure ?_
    have shorter := made.1
    exact ⟨fun whole => law.whole rfl rfl fun _ => .cons whole (.single made.2), by omega⟩

/-- Binary operators that bind tighter than a level. -/
theorem runs_binaryRule (law : Law P) (serves : g.Serves w P g' n) (ctx : Context) (level : Nat)
    (fits : 8 * c.rest.length + 3 ≤ n) :
    Runs w c (binaryRule g ctx level) (binaryRule g' ctx level) fun e => Node.Made P c (.expr e) := by
  refine (serves.unary ctx fits).bind fun first d le made => ?_
  have shorter := made.1
  refine (runs_loop_keeps (fun left _ => (Node.expr left).Whole P) made.2 fun left e le' =>
    runs_binaryTurn law serves ctx level left (by omega)).mono fun e f le' whole => ?_
  exact ⟨by omega, whole⟩

theorem runs_conditional (law : Law P) (serves : g.Serves w P g' n) (ctx : Context)
    (fits : 8 * c.rest.length + 4 ≤ n) :
    Runs w c (conditional g ctx) (conditional g' ctx) fun e => Node.Made P c (.expr e) := by
  refine (serves.binary ctx 0 fits).bind fun test d le made => ?_
  refine Runs.eat (by rintro ⟨⟩) (fun _ e lt _ _ => ?_) (fun _ _ _ _ => runs_pure made)
  refine (serves.assignment _ (by omega)).bind fun consequent f _ made' => ?_
  have shorter := made'.1
  refine Runs.require (by rintro ⟨⟩) fun _ h lt' _ _ => ?_
  refine (serves.assignment ctx (by omega)).bind fun alternate j _ made'' => runs_pure ?_
  have shorter' := made''.1
  exact ⟨by omega, law.whole rfl rfl fun _ => .cons made.2 (.cons made'.2 (.single made''.2))⟩

theorem runs_yieldExpression {t : Token} {d : Cursor} (law : Law P) (serves : g.Serves w P g' n)
    (ctx : Context) (fits : 8 * c.rest.length ≤ n) (ahead : token .operand c = .ok (t, d))
    (word : t.isWord "yield" = true) :
    Runs w c (yieldExpression g ctx) (yieldExpression g' ctx) fun e => Node.Made P c (.expr e) := by
  have kind := isIdentifier_of_isWord word
  have read : token .operator c = .ok (t, d) := Scan.token_expecting ahead (by rw [kind]; rfl)
  refine Runs.takeAhead read (by rw [kind]; rintro ⟨⟩) fun lt => ?_
  refine runs_eat.bind fun isDelegate e le _ => ?_
  have finish (argument : Option Expr) (f : Cursor) (le' : f.rest.length ≤ e.rest.length)
      (whole : ∀ a, AllParts (Node.Whole P) (Expr.optionalParts a argument)) :
      Runs w f (since t.span.start >>= fun s => pure (Expr.yield s isDelegate argument))
        (since t.span.start >>= fun s => pure (Expr.yield s isDelegate argument))
        fun e => Node.Made P c (.expr e) :=
    Runs.since (runs_pure ⟨by omega, law.whole rfl rfl whole⟩)
  refine Runs.look fun _ _ _ => ?_
  split
  · exact finish none e (Nat.le_refl _) fun _ => .nil
  · refine (serves.assignment ctx (by omega)).bind fun argument f le' made => ?_
    exact finish (some argument) f le' fun _ => .single made.2

/-- Assignments, which group to the right. -/
theorem runs_assignmentRule (law : Law P) (serves : g.Serves w P g' n) (ctx : Context)
    (fits : 8 * c.rest.length + 4 ≤ n) :
    Runs w c (assignmentRule g ctx) (assignmentRule g' ctx) fun e => Node.Made P c (.expr e) := by
  refine Runs.look fun t d ahead => ?_
  split
  next word =>
    exact runs_yieldExpression law serves ctx (by omega) ahead (Bool.and_eq_true_iff.mp word).2
  · refine (runs_conditional law serves ctx fits).bind fun left e _ made => ?_
    have shorter := made.1
    refine Runs.look fun u f ahead => ?_
    split
    · exact runs_pure made
    next op is =>
      refine Runs.takeAhead ahead (AssignmentOperator.ne_eof is) fun lt => ?_
      refine (runs_ofExcept (Q := fun target h => h = f ∧ left.toTarget (op == .plain) = .ok target)
        (left.toTarget_refuses _) fun target read => ⟨rfl, read⟩).bind ?_
      rintro target h - ⟨rfl, read⟩
      refine (serves.assignment ctx (by omega)).bind fun value h _ made' => runs_pure ?_
      have shorter' := made'.1
      exact ⟨by omega, .intro (law.assign _ op left target value read)
        fun _ => .cons (law.toTarget read made.2.1) (.single made'.2.1), rfl⟩

end
end Parser
end NameAudit
