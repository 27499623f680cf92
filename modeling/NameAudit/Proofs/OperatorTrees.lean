import NameAudit.Proofs.Primaries
import NameAudit.Proofs.Spellings

/-!
Expressions of names, operators and parentheses. `OperatorText` is their grammar, token by token: an operand
of a binary operator holds, outside of parentheses, only operators that bind at least as tightly as its
place asks. The parser reads such a text as its tree (`OperatorText.reads`): a binary operator that it meets
is taken by the innermost loop whose level lets it, and the other loops end before it.
-/
namespace NameAudit

open Grammar (ofDepth)
open Scan (token PlainName)

/-- Expressions of names and operators. -/
inductive OperatorTree where
  | name (n : PlainName)
  | binary (op : BinaryOperator) (left right : OperatorTree)
  | conditional (test consequent alternate : OperatorTree)
  | assign (op : AssignmentOperator) (target : PlainName) (value : OperatorTree)
  | comma (left right : OperatorTree)

/-- An expression is a tree, wherever it stands. -/
inductive OperatorTree.Denotes : OperatorTree → Expr → Prop
  | name {n : PlainName} {span : Span} : Denotes (.name n) (.ident span n.text)
  | binary {op : BinaryOperator} {l r : OperatorTree} {span : Span} {left right : Expr}
    (first : Denotes l left) (second : Denotes r right) :
    Denotes (.binary op l r) (.binary span op left right)
  | conditional {t c a : OperatorTree} {span : Span} {test consequent alternate : Expr}
    (first : Denotes t test) (second : Denotes c consequent) (third : Denotes a alternate) :
    Denotes (.conditional t c a) (.conditional span test consequent alternate)
  | assign {op : AssignmentOperator} {n : PlainName} {v : OperatorTree} {span target : Span} {value : Expr}
    (second : Denotes v value) : Denotes (.assign op n v) (.assign span op (.ident target n.text) value)
  | comma {l r : OperatorTree} {span : Span} {left right : Expr} (first : Denotes l left)
    (second : Denotes r right) : Denotes (.comma l r) (.comma span left right)

namespace BinaryOperator

/-- The operators, row by row; those of a row bind alike, and more tightly than those of the rows before. -/
def rows : List (List BinaryOperator) := [
  [.nullishCoalescing],
  [.logicalOr],
  [.logicalAnd],
  [.bitwiseOr],
  [.bitwiseXor],
  [.bitwiseAnd],
  [.equality, .inequality, .strictEquality, .strictInequality],
  [.lessThan, .lessThanOrEqual, .greaterThan, .greaterThanOrEqual, .within, .instanceOf],
  [.bitwiseLeftShift, .bitwiseRightShift, .bitwiseUnsignedRightShift],
  [.addition, .subtraction],
  [.multiplication, .division, .remainder],
  [.exponentiation]]

/-- How tightly an operator binds: the row that it stands in, from 1. -/
def row (op : BinaryOperator) : Nat := rows.findIdx (·.contains op) + 1

/-- How tightly the operators in the left operand have to bind: more tightly than the operator itself where
it groups to the right. -/
def leftLeast (op : BinaryOperator) : Nat := if op = .exponentiation then op.row + 1 else op.row

/-- How tightly the operators in the right operand have to bind. -/
def rightLeast (op : BinaryOperator) : Nat := if op = .exponentiation then op.row else op.row + 1

/-- The rows are the levels that the parser goes by. -/
theorem row_eq_precedence (op : BinaryOperator) : op.row = op.precedence := by
  cases op <;> rfl

end BinaryOperator

/-- A place for an expression. -/
inductive OperatorPlace where
  /-- An operand of binary operators, whose own operators bind at least so tightly. -/
  | operand (least : Nat)
  /-- A place that is no operand, without commas. -/
  | item
  | list

/-- A tree is written at a place between two positions. -/
inductive OperatorText : OperatorPlace → OperatorTree → Cursor → Cursor → Prop
  | name {least : Nat} {n : PlainName} {c d : Cursor} {t : Token} (read : token .operator c = .ok (t, d))
    (names : t.Names n.text) : OperatorText (.operand least) (.name n) c d
  | paren {least : Nat} {tree : OperatorTree} {c d e f : Cursor} {t u : Token}
    (opening : token .operator c = .ok (t, d)) (opens : t.kind = .punct .parenOpen)
    (inside : OperatorText .list tree d e) (closing : token .operator e = .ok (u, f))
    (closes : u.kind = .punct .parenClose) : OperatorText (.operand least) tree c f
  | binary {least : Nat} {op : BinaryOperator} {l r : OperatorTree} {c d e f : Cursor} {t : Token}
    (tight : least ≤ op.row) (left : OperatorText (.operand op.leftLeast) l c d)
    (read : token .operator d = .ok (t, e)) (writes : BinaryOperator.ofToken? t.kind = some op)
    (right : OperatorText (.operand op.rightLeast) r e f) : OperatorText (.operand least) (.binary op l r) c f
  | item {tree : OperatorTree} {c d : Cursor} (operand : OperatorText (.operand 1) tree c d) :
    OperatorText .item tree c d
  | conditional {test consequent alternate : OperatorTree} {c d e f g h : Cursor} {t u : Token}
    (first : OperatorText (.operand 1) test c d) (question : token .operator d = .ok (t, e))
    (asks : t.kind = .punct .question) (second : OperatorText .item consequent e f)
    (colon : token .operator f = .ok (u, g)) (separates : u.kind = .punct .colon)
    (third : OperatorText .item alternate g h) :
    OperatorText .item (.conditional test consequent alternate) c h
  | assign {op : AssignmentOperator} {n : PlainName} {value : OperatorTree} {c d e f : Cursor} {t u : Token}
    (read : token .operator c = .ok (t, d)) (names : t.Names n.text) (sign : token .operator d = .ok (u, e))
    (writes : AssignmentOperator.ofToken? u.kind = some op) (second : OperatorText .item value e f) :
    OperatorText .item (.assign op n value) c f
  | single {tree : OperatorTree} {c d : Cursor} (item : OperatorText .item tree c d) :
    OperatorText .list tree c d
  | comma {l r : OperatorTree} {c d e f : Cursor} {t : Token} (before : OperatorText .list l c d)
    (read : token .operator d = .ok (t, e)) (separates : t.kind = .punct .comma)
    (last : OperatorText .item r e f) : OperatorText .list (.comma l r) c f

/-! ### Tokens -/

namespace BinaryOperator

variable {op other : BinaryOperator}

theorem precedence_le_leftLeast (op : BinaryOperator) : op.precedence ≤ op.leftLeast := by
  cases op <;> decide

theorem precedence_le_rightLeast (op : BinaryOperator) : op.precedence ≤ op.rightLeast := by
  cases op <;> decide

theorem rightLevel_lt_rightLeast (op : BinaryOperator) :
    Parser.BinaryOperator.rightLevel op < op.rightLeast := by
  cases op <;> decide

/-- The loop over the right operand leaves every operator that the operand does not hold. -/
theorem le_rightLevel (loose : other.leftLeast ≤ op.precedence) :
    other.precedence ≤ Parser.BinaryOperator.rightLevel op := by
  revert loose
  cases op <;> cases other <;> decide

end BinaryOperator

namespace TokenKind

variable {kind : TokenKind} {least : Nat}

/-- A token that can follow an operand, and is no operator that binds more tightly. -/
structure AfterOperand (least : Nat) (kind : TokenKind) : Prop where
  apart : kind.continuesOperand = false
  loose : ∀ op, BinaryOperator.ofToken? kind = some op → op.leftLeast ≤ least

/-- The end of an item, or the colon of a conditional expression. -/
def AfterItem (kind : TokenKind) : Prop := kind.EndsItem ∨ kind = .punct .colon

theorem AfterOperand.mono (after : kind.AfterOperand least) {more : Nat} (le : least ≤ more) :
    kind.AfterOperand more :=
  ⟨after.apart, fun op writes => Nat.le_trans (after.loose op writes) le⟩

theorem afterOperand_binary {op : BinaryOperator} (writes : BinaryOperator.ofToken? kind = some op) :
    kind.AfterOperand op.leftLeast := by
  refine ⟨?_, fun other same => ?_⟩
  · unfold BinaryOperator.ofToken? at writes
    split at writes <;> first | rfl | cases writes
  · rw [Option.some.inj (same.symm.trans writes)]

theorem afterOperand_of_none (apart : kind.continuesOperand = false)
    (none : BinaryOperator.ofToken? kind = none) (least : Nat) : kind.AfterOperand least :=
  ⟨apart, fun op writes => by rw [none] at writes; cases writes⟩

theorem not_binary_of_assigns {op : AssignmentOperator} (writes : AssignmentOperator.ofToken? kind = some op) :
    kind.continuesOperand = false ∧ BinaryOperator.ofToken? kind = none ∧ kind ≠ .punct .question := by
  unfold AssignmentOperator.ofToken? at writes
  split at writes
  case h_17 => cases writes
  all_goals exact ⟨rfl, rfl, by rintro ⟨⟩⟩

theorem AfterItem.plain (after : kind.AfterItem) :
    kind.continuesOperand = false ∧ BinaryOperator.ofToken? kind = none ∧ kind ≠ .punct .question ∧
      AssignmentOperator.ofToken? kind = none := by
  rcases after with (rfl | rfl | rfl | rfl | rfl) | rfl <;> exact ⟨rfl, rfl, by rintro ⟨⟩, rfl⟩

end TokenKind

section
variable {place : OperatorPlace} {tree : OperatorTree} {c d : Cursor}

/-- A text of operators begins with a name or a parenthesis. -/
theorem OperatorText.begins (written : OperatorText place tree c d) :
    ∃ t e, token .operator c = .ok (t, e) ∧ (t.kind = .identifier ∨ t.kind = .punct .parenOpen) := by
  induction written with
  | name read names => exact ⟨_, _, read, .inl names.1⟩
  | paren opening opens _ _ _ => exact ⟨_, _, opening, .inr opens⟩
  | binary _ _ _ _ _ ih _ => exact ih
  | item _ ih => exact ih
  | conditional _ _ _ _ _ _ _ ih _ _ => exact ih
  | assign read names _ _ _ => exact ⟨_, _, read, .inl names.1⟩
  | single _ ih => exact ih
  | comma _ _ _ _ ih _ => exact ih

theorem OperatorText.length_lt (written : OperatorText place tree c d) : d.rest.length < c.rest.length := by
  induction written with
  | name read names => exact Scan.identifier_length_lt read names.1
  | paren opening opens _ closing closes ih =>
    have := Scan.punct_length_lt opening opens
    have := Scan.punct_length_lt closing closes
    omega
  | binary _ _ read writes _ ihLeft ihRight =>
    have := Scan.token_length_lt read (by rintro eof; rw [eof] at writes; cases writes)
    omega
  | item _ ih => exact ih
  | conditional _ question asks _ colon separates _ ihFirst ihSecond ihThird =>
    have := Scan.punct_length_lt question asks
    have := Scan.punct_length_lt colon separates
    omega
  | assign read names sign writes _ ih =>
    have := Scan.identifier_length_lt read names.1
    have := Scan.token_length_lt sign (by rintro eof; rw [eof] at writes; cases writes)
    omega
  | single _ ih => exact ih
  | comma _ read separates _ ihBefore ihLast =>
    have := Scan.punct_length_lt read separates
    omega

end

/-! ### Reading -/

namespace Parser

/-- Expressions joined by commas, of which the last is given. -/
def joined : List Expr → Expr → Expr
  | [], last => last
  | first :: others, last => joinByComma first (others ++ [last])

theorem joined_concat (init : List Expr) (x y : Expr) :
    joined (init ++ [x]) y = .comma ((joined init x).span.join y.span) (joined init x) y := by
  cases init with
  | nil => rfl
  | cons first others =>
    simp only [joined, joinByComma, List.cons_append, List.foldl_append, List.foldl_cons, List.foldl_nil]

section
variable (text : List Char) (tree : OperatorTree) (c d : Cursor)

/-- Where the loop over the operators after an operand leads, the rule for binary operators leads from the
operand on. -/
def OperandReads (least : Nat) : Prop :=
  ∀ n level u e, 8 * c.rest.length + 3 ≤ n → level < least → token .operator d = .ok (u, e) →
    u.kind.AfterOperand least →
      ∃ x, tree.Denotes x ∧ ∀ r f, Leads text d (loop (binaryTurn (ofDepth n) {} level) x) r f →
        Leads text c (binaryRule (ofDepth n) {} level) r f

/-- An item is an assignment. -/
def ItemReads : Prop :=
  ∀ n u e, 8 * c.rest.length + 5 ≤ n → token .operator d = .ok (u, e) → u.kind.AfterItem →
    ∃ x, tree.Denotes x ∧ Leads text c ((ofDepth n).assignment {}) x d

/-- Where the loop over the commas after an expression leads, the rule for expressions leads from the
expression on. -/
def ExpressionReads : Prop :=
  ∀ n u e, 8 * c.rest.length + 5 ≤ n → token .operator d = .ok (u, e) → u.kind.EndsItem →
    ∃ x, tree.Denotes x ∧ ∀ r f, Leads text d (loop (expressionTurn (ofDepth n) {}) x) r f →
      Leads text c (expression (ofDepth n) {}) r f

/-- In parentheses, the items before the last are read first. -/
def ItemsRead : Prop :=
  ∀ n u e, 8 * c.rest.length + 5 ≤ n → token .operator d = .ok (u, e) → u.kind.EndsItem →
    ∃ init last d', tree.Denotes (joined init last) ∧
      Leads text d' (eat (.punct .parenClose)) false d' ∧
      Leads text d' (parenItem (ofDepth n) {}) (.expr last, false) d ∧
      d.rest.length < d'.rest.length ∧
      ∀ r f, Leads text d' (loop (itemsTurn .parenClose (parenItem (ofDepth n) {})) (init.map .expr)) r f →
        Leads text c (loop (itemsTurn .parenClose (parenItem (ofDepth n) {})) []) r f

/-- What is read at a place. -/
def PlaceReads : OperatorPlace → Prop
  | .operand least => OperandReads text tree c d least
  | .item => ItemReads text tree c d
  | .list => ExpressionReads text tree c d ∧ ItemsRead text tree c d

end

section
variable {text : List Char} {tree l r : OperatorTree} {c d e f g h : Cursor} {t u : Token} {x : Expr}
  {n least : Nat}

theorem leads_operand_of_primary {level : Nat} (read : token .operator c = .ok (t, e))
    (begins : t.kind.beginsPrimary = true) (next : token .operator d = .ok (u, f))
    (after : u.kind.continuesOperand = false) (deep : 3 ≤ n)
    (alone : Leads text c (primary (ofDepth (n - 2)) {}) x d) {y : Expr} {g : Cursor}
    (onward : Leads text d (loop (binaryTurn (ofDepth n) {} level) x) y g) :
    Leads text c (binaryRule (ofDepth n) {} level) y g := by
  obtain ⟨k, rfl⟩ : ∃ k, n = k + 2 := ⟨n - 2, by omega⟩
  exact (leads_unary_of_primary read begins next after alone).bind onward

theorem operandReads_name {n : PlainName} (read : token .operator c = .ok (t, d)) (names : t.Names n.text) :
    OperandReads text (.name n) c d least := by
  intro depth level u e fits below next after
  refine ⟨.ident t.span n.text, .name, fun y f onward => ?_⟩
  exact leads_operand_of_primary read (by rw [names.1]; rfl) next after.apart (by omega)
    (leads_name read names next after.apart) onward

/-- The operators that a loop leaves end it. -/
theorem leads_loop_binaryTurn {level : Nat} (next : token .operator d = .ok (u, e))
    (leaves : ∀ op, BinaryOperator.ofToken? u.kind = some op → op.precedence ≤ level) :
    Leads text d (loop (binaryTurn (ofDepth n) {} level) x) x d := by
  refine leads_loop_done ((leads_look next).bind ?_)
  have none : binaryOperator? {} level u = none := by
    unfold binaryOperator?
    cases writes : BinaryOperator.ofToken? u.kind with
    | none => rfl
    | some op =>
      have := leaves op writes
      rw [Option.filter_some, if_neg]
      simp only [Bool.and_eq_true, decide_eq_true_eq]
      omega
  rw [none]
  exact leads_pure _ _

theorem operandReads_binary {op : BinaryOperator} (tight : least ≤ op.precedence)
    (left : OperandReads text l c d op.leftLeast) (shorter : d.rest.length < c.rest.length)
    (read : token .operator d = .ok (t, e)) (writes : BinaryOperator.ofToken? t.kind = some op)
    (right : OperandReads text r e f op.rightLeast) (shorter' : f.rest.length < e.rest.length) :
    OperandReads text (.binary op l r) c f least := by
  intro n level u g fits below next after
  have shorter'' := Scan.token_length_lt read (by rintro eof; rw [eof] at writes; cases writes)
  obtain ⟨m, rfl⟩ : ∃ m, n = m + 1 := ⟨n - 1, by omega⟩
  have tight' := op.precedence_le_leftLeast
  obtain ⟨x, denotes, onward⟩ := left (m + 1) level t e fits (by omega) read (TokenKind.afterOperand_binary writes)
  obtain ⟨y, denotes', onward'⟩ := right m _ u g (by omega) op.rightLevel_lt_rightLeast next
    (after.mono (Nat.le_trans tight op.precedence_le_rightLeast))
  have ended : Leads text f (loop (binaryTurn (ofDepth m) {} (BinaryOperator.rightLevel op)) y) y f :=
    leads_loop_binaryTurn next fun other same =>
      BinaryOperator.le_rightLevel (Nat.le_trans (after.loose other same) tight)
  refine ⟨.binary (x.span.join y.span) op x y, .binary denotes denotes', fun z h rest => onward z h ?_⟩
  refine leads_loop_again ?_ (by omega) rest
  have some : binaryOperator? {} level t = some op := by
    unfold binaryOperator?
    rw [writes, Option.filter_some, if_pos]
    simp only [Bool.false_and, Bool.not_false, Bool.and_true, decide_eq_true_eq]
    omega
  refine (leads_look read).bind ?_
  rw [some]
  exact (leads_take read).bind ((onward' y f ended).bind (leads_pure _ _))

/-- An operand before a token that makes it no operand. -/
theorem leads_binary_of_operand (operand : OperandReads text tree c d 1)
    (next : token .operator d = .ok (u, e)) (apart : u.kind.continuesOperand = false)
    (none : BinaryOperator.ofToken? u.kind = none) (fits : 8 * c.rest.length + 4 ≤ n) :
    ∃ x, tree.Denotes x ∧ Leads text c ((ofDepth n).binary {} 0) x d := by
  obtain ⟨m, rfl⟩ : ∃ m, n = m + 1 := ⟨n - 1, by omega⟩
  obtain ⟨x, denotes, onward⟩ := operand m 0 u e (by omega) Nat.zero_lt_one next
    (TokenKind.afterOperand_of_none apart none 1)
  refine ⟨x, denotes, onward x d (leads_loop_binaryTurn next fun op writes => ?_)⟩
  rw [none] at writes
  cases writes

/-- A text of operators begins where an operand is expected as well. -/
theorem begins_operand (begin : token .operator c = .ok (t, f))
    (begins : t.kind = .identifier ∨ t.kind = .punct .parenOpen) : token .operand c = .ok (t, f) := by
  refine Scan.token_expecting begin ?_
  rcases begins with same | same <;> rw [same] <;> rfl

/-- Without an operator after it, a conditional expression is an assignment. -/
theorem leads_assignmentRule {g : Grammar} (begin : token .operator c = .ok (t, f))
    (begins : t.kind = .identifier ∨ t.kind = .punct .parenOpen) (left : Leads text c (conditional g {}) x d)
    (next : token .operator d = .ok (u, e)) (none : AssignmentOperator.ofToken? u.kind = none) :
    Leads text c (assignmentRule g {}) x d := by
  refine (leads_look (begins_operand begin begins)).bind (left.bind ((leads_look next).bind ?_))
  rw [none]
  exact leads_pure _ _

theorem itemReads_operand (written : OperatorText (.operand 1) tree c d)
    (operand : OperandReads text tree c d 1) : ItemReads text tree c d := by
  intro n u e fits next after
  obtain ⟨apart, none, question, noAssignment⟩ := after.plain
  obtain ⟨m, rfl⟩ : ∃ m, n = m + 1 := ⟨n - 1, by omega⟩
  obtain ⟨x, denotes, read⟩ := leads_binary_of_operand (n := m) operand next apart none (by omega)
  obtain ⟨t, f, begin, begins⟩ := written.begins
  exact ⟨x, denotes, leads_assignmentRule begin begins
    (read.bind ((leads_leave next question).bind (leads_pure _ _))) next noAssignment⟩

theorem itemReads_conditional {test consequent alternate : OperatorTree}
    (first : OperatorText (.operand 1) test c d) (operand : OperandReads text test c d 1)
    (question : token .operator d = .ok (t, e)) (asks : t.kind = .punct .question)
    (second : OperatorText .item consequent e f) (item : ItemReads text consequent e f)
    (colon : token .operator f = .ok (u, g)) (separates : u.kind = .punct .colon)
    (last : ItemReads text alternate g h) :
    ItemReads text (.conditional test consequent alternate) c h := by
  intro n v i fits next after
  obtain ⟨-, -, -, noAssignment⟩ := after.plain
  have ltFirst := first.length_lt
  have ltQuestion := Scan.punct_length_lt question asks
  have ltSecond := second.length_lt
  have ltColon := Scan.punct_length_lt colon separates
  obtain ⟨m, rfl⟩ : ∃ m, n = m + 1 := ⟨n - 1, by omega⟩
  obtain ⟨x, denotes, read⟩ := leads_binary_of_operand (n := m) operand question (by rw [asks]; rfl)
    (by rw [asks]; rfl) (by omega)
  obtain ⟨y, denotes', read'⟩ := item m u g (by omega) colon (.inr separates)
  obtain ⟨z, denotes'', read''⟩ := last m v i (by omega) next after
  obtain ⟨t', f', begin, begins⟩ := first.begins
  have whole : Leads text c (conditional (ofDepth m) {}) (.conditional (x.span.join z.span) x y z) h := by
    refine read.bind ((leads_eat question asks).bind ?_)
    exact read'.bind ((leads_require colon separates).bind (read''.bind (leads_pure _ _)))
  exact ⟨_, .conditional denotes denotes' denotes'', leads_assignmentRule begin begins whole next noAssignment⟩

theorem itemReads_assign {op : AssignmentOperator} {name : PlainName} {value : OperatorTree}
    (read : token .operator c = .ok (t, d)) (names : t.Names name.text)
    (sign : token .operator d = .ok (u, e)) (writes : AssignmentOperator.ofToken? u.kind = some op)
    (item : ItemReads text value e f) : ItemReads text (.assign op name value) c f := by
  intro n v g fits next after
  obtain ⟨apart, none, question⟩ := TokenKind.not_binary_of_assigns writes
  have ltName := Scan.identifier_length_lt read names.1
  have ltSign := Scan.token_length_lt sign (by rintro eof; rw [eof] at writes; cases writes)
  obtain ⟨m, rfl⟩ : ∃ m, n = m + 1 := ⟨n - 1, by omega⟩
  obtain ⟨x, denotes, left⟩ := leads_binary_of_operand (n := m) (operandReads_name read names) sign apart
    none (by omega)
  obtain ⟨y, denotes', right⟩ := item m v g (by omega) next after
  have whole : Leads text c (conditional (ofDepth m) {}) x d :=
    left.bind ((leads_leave sign question).bind (leads_pure _ _))
  cases denotes with
  | @name _ span =>
    refine ⟨.assign (span.join y.span) op (.ident span name.text) y, .assign denotes', ?_⟩
    refine (leads_look (begins_operand read (.inl names.1))).bind (whole.bind ((leads_look sign).bind ?_))
    rw [writes]
    refine (leads_take sign).bind ((leads_ofExcept rfl e).bind ?_)
    exact right.bind (leads_pure _ _)

/-! ### Lists -/

/-- An item is read alike in parentheses. -/
theorem leads_parenItem (written : OperatorText .item tree c d) (fits : 8 * c.rest.length + 5 ≤ n)
    (item : ItemReads text tree c d) (next : token .operator d = .ok (u, e)) (ends : u.kind.EndsItem) :
    ∃ x, tree.Denotes x ∧ Leads text c (eat (.punct .parenClose)) false c ∧
      Leads text c (parenItem (ofDepth n) {}) (.expr x, false) d := by
  obtain ⟨x, denotes, read⟩ := item n u e fits next (.inl ends)
  obtain ⟨t, f, begin, begins⟩ := written.begins
  refine ⟨x, denotes, leads_leave begin ?_, (leads_leave begin ?_).bind (read.bind (leads_pure _ _))⟩
  · rcases begins with same | same <;> rw [same] <;> rintro ⟨⟩
  · rcases begins with same | same <;> rw [same] <;> rintro ⟨⟩

theorem listReads_single (written : OperatorText .item tree c d) (item : ItemReads text tree c d) :
    PlaceReads text tree c d .list := by
  constructor
  · intro n u e fits next ends
    obtain ⟨x, denotes, read⟩ := item n u e fits next (.inl ends)
    exact ⟨x, denotes, fun y f onward => read.bind onward⟩
  · intro n u e fits next ends
    obtain ⟨x, denotes, more, read⟩ := leads_parenItem written fits item next ends
    exact ⟨[], x, c, denotes, more, read, written.length_lt, fun y f onward => onward⟩

theorem listReads_comma (before : OperatorText .list l c d) (list : PlaceReads text l c d .list)
    (read : token .operator d = .ok (t, e)) (separates : t.kind = .punct .comma)
    (last : OperatorText .item r e f) (item : ItemReads text r e f) :
    PlaceReads text (.comma l r) c f .list := by
  have ltBefore := before.length_lt
  have ltComma := Scan.punct_length_lt read separates
  have ltLast := last.length_lt
  obtain ⟨expression, items⟩ := list
  constructor
  · intro n u g fits next ends
    obtain ⟨x, denotes, onward⟩ := expression n t e fits read (.comma separates)
    obtain ⟨y, denotes', right⟩ := item n u g (by omega) next (.inl ends)
    refine ⟨.comma (x.span.join y.span) x y, .comma denotes denotes', fun z h rest => onward z h ?_⟩
    refine leads_loop_again ?_ (by omega) rest
    exact (leads_eat read separates).bind (right.bind (leads_pure _ _))
  · intro n u g fits next ends
    obtain ⟨init, x, d', denotes, more, left, lt, onward⟩ := items n t e fits read (.comma separates)
    obtain ⟨y, denotes', more', right⟩ := leads_parenItem (n := n) last (by omega) item next ends
    refine ⟨init ++ [x], y, e, ?_, more', right, ltLast, fun z h rest => onward z h ?_⟩
    · rw [joined_concat]
      exact .comma denotes denotes'
    · rw [List.map_append] at rest
      refine leads_loop_again (more.bind (left.bind ?_)) (by omega) rest
      exact leads_comma read separates

theorem exprs_map (es : List Expr) : ParenItem.exprs (es.map .expr) = es ∧ ParenItem.rests (es.map .expr) = [] := by
  induction es with
  | nil => exact ⟨rfl, rfl⟩
  | cons e es ih => exact ⟨congrArg (e :: ·) ih.1, ih.2⟩

/-- A list in parentheses is an operand. -/
theorem operandReads_paren (opening : token .operator c = .ok (t, d)) (opens : t.kind = .punct .parenOpen)
    (list : PlaceReads text tree d e .list) (closing : token .operator e = .ok (u, f))
    (closes : u.kind = .punct .parenClose) : OperandReads text tree c f least := by
  intro n level v g fits below next after
  have ltOpening := Scan.punct_length_lt opening opens
  obtain ⟨init, x, d', denotes, more, read, -, onward⟩ := list.2 (n - 2) u f (by omega) closing (.paren closes)
  refine ⟨joined init x, denotes, fun y h rest => ?_⟩
  have items : Leads text d (items .parenClose (parenItem (ofDepth (n - 2)) {}))
      ⟨(init ++ [x]).map .expr, false⟩ f := by
    refine onward _ f (leads_loop_done (more.bind (read.bind ?_)))
    rw [List.map_append]
    exact leads_close (by rintro ⟨⟩) closing closes
  have noArrow : (v.kind == .punct .arrow) = false := by
    apply Bool.eq_false_iff.mpr
    intro same
    have apart := after.apart
    rw [beq_iff_eq.mp same] at apart
    cases apart
  have inside : Leads text d (parenOrArrow (ofDepth (n - 2)) {} t.span.start) (joined init x) f := by
    refine items.bind ((leads_look next).bind ?_)
    rw [if_neg (Bool.eq_false_iff.mp noArrow), (exprs_map _).1, (exprs_map _).2]
    cases init with
    | nil => exact leads_pure _ _
    | cons first others => exact leads_pure _ _
  have alone : Leads text c (primary (ofDepth (n - 2)) {}) (joined init x) f := by
    refine (leads_take (Scan.token_expecting opening (by rw [opens]; rfl))).bind ?_
    rw [opens]
    exact inside
  exact leads_operand_of_primary opening (by rw [opens]; rfl) next after.apart (by omega) alone rest

end
end Parser

/-- A text of operators is read as its tree at its place. -/
theorem OperatorText.reads {place : OperatorPlace} {tree : OperatorTree} {c d : Cursor} (text : List Char)
    (written : OperatorText place tree c d) : Parser.PlaceReads text tree c d place := by
  induction written with
  | name read names => exact Parser.operandReads_name read names
  | paren opening opens _ closing closes ih => exact Parser.operandReads_paren opening opens ih closing closes
  | @binary _ op _ _ _ _ _ _ _ tight left read writes right ihLeft ihRight =>
    rw [op.row_eq_precedence] at tight
    exact Parser.operandReads_binary tight ihLeft left.length_lt read writes ihRight right.length_lt
  | item operand ih => exact Parser.itemReads_operand operand ih
  | conditional first question asks second colon separates _ ihFirst ihSecond ihThird =>
    exact Parser.itemReads_conditional first ihFirst question asks second ihSecond colon separates ihThird
  | assign read names sign writes _ ih => exact Parser.itemReads_assign read names sign writes ih
  | single item ih => exact Parser.listReads_single item ih
  | comma before read separates last ihBefore ihLast =>
    exact Parser.listReads_comma before ihBefore read separates last ihLast

end NameAudit
