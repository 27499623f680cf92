import NameAudit.Token

/-!
Operators, the tokens that write them, and how tightly the binary ones bind.
-/
namespace NameAudit

/-- Binary operators other than assignment and comma. -/
inductive BinaryOperator where
  | nullishCoalescing | logicalOr | logicalAnd | bitwiseOr | bitwiseXor | bitwiseAnd | equality
  | inequality | strictEquality | strictInequality | lessThan | lessThanOrEqual | greaterThan
  | greaterThanOrEqual | within | instanceOf | bitwiseLeftShift | bitwiseRightShift
  | bitwiseUnsignedRightShift | addition | subtraction | multiplication | division | remainder
  | exponentiation
  deriving DecidableEq, Inhabited, Repr

namespace BinaryOperator

def ofToken? : TokenKind → Option BinaryOperator
  | .punct .nullish => some .nullishCoalescing
  | .punct .pipePipe => some .logicalOr
  | .punct .ampAmp => some .logicalAnd
  | .punct .pipe => some .bitwiseOr
  | .punct .caret => some .bitwiseXor
  | .punct .amp => some .bitwiseAnd
  | .punct .eq => some .equality
  | .punct .bangEq => some .inequality
  | .punct .strictEq => some .strictEquality
  | .punct .strictNotEq => some .strictInequality
  | .punct .lt => some .lessThan
  | .punct .ltEq => some .lessThanOrEqual
  | .punct .gt => some .greaterThan
  | .punct .gtEq => some .greaterThanOrEqual
  | .word .inWord => some .within
  | .word .instanceofWord => some .instanceOf
  | .punct .shl => some .bitwiseLeftShift
  | .punct .shr => some .bitwiseRightShift
  | .punct .uShr => some .bitwiseUnsignedRightShift
  | .punct .plus => some .addition
  | .punct .minus => some .subtraction
  | .punct .star => some .multiplication
  | .punct .slash => some .division
  | .punct .percent => some .remainder
  | .punct .starStar => some .exponentiation
  | _ => none

/-- The level of an operator, from 1; a higher level binds tighter. -/
def precedence : BinaryOperator → Nat
  | .nullishCoalescing => 1
  | .logicalOr => 2
  | .logicalAnd => 3
  | .bitwiseOr => 4
  | .bitwiseXor => 5
  | .bitwiseAnd => 6
  | .equality | .inequality | .strictEquality | .strictInequality => 7
  | .lessThan | .lessThanOrEqual | .greaterThan | .greaterThanOrEqual | .within | .instanceOf => 8
  | .bitwiseLeftShift | .bitwiseRightShift | .bitwiseUnsignedRightShift => 9
  | .addition | .subtraction => 10
  | .multiplication | .division | .remainder => 11
  | .exponentiation => 12

/-- Only exponentiation groups to the right. -/
def isRightAssociative (op : BinaryOperator) : Bool := op == .exponentiation

/-- Whether the value of the expression is the value of one of its operands. -/
def isSelection : BinaryOperator → Bool
  | .logicalAnd | .logicalOr | .nullishCoalescing => true
  | _ => false

theorem precedence_pos (op : BinaryOperator) : 0 < op.precedence := by cases op <;> decide

end BinaryOperator

/-- Assignment operators: the plain one, and those that combine the old value with the new one. -/
inductive AssignmentOperator where
  | plain | addition | bitwiseAnd | bitwiseLeftShift | bitwiseOr | bitwiseRightShift
  | bitwiseUnsignedRightShift | bitwiseXor | division | exponentiation | logicalAnd | logicalOr
  | multiplication | nullishCoalescing | remainder | subtraction
  deriving DecidableEq, Inhabited, Repr

namespace AssignmentOperator

def ofToken? : TokenKind → Option AssignmentOperator
  | .punct .assign => some .plain
  | .punct .plusAssign => some .addition
  | .punct .ampAssign => some .bitwiseAnd
  | .punct .shlAssign => some .bitwiseLeftShift
  | .punct .pipeAssign => some .bitwiseOr
  | .punct .shrAssign => some .bitwiseRightShift
  | .punct .uShrAssign => some .bitwiseUnsignedRightShift
  | .punct .caretAssign => some .bitwiseXor
  | .punct .slashAssign => some .division
  | .punct .starStarAssign => some .exponentiation
  | .punct .ampAmpAssign => some .logicalAnd
  | .punct .pipePipeAssign => some .logicalOr
  | .punct .starAssign => some .multiplication
  | .punct .nullishAssign => some .nullishCoalescing
  | .punct .percentAssign => some .remainder
  | .punct .minusAssign => some .subtraction
  | _ => none

end AssignmentOperator

/-- Operators written before their operand. -/
inductive UnaryOperator where
  | logicalNot | bitwiseNot | plus | negation | increment | decrement | typeOf | voidOf | delete
  | awaiting
  deriving DecidableEq, Inhabited, Repr

namespace UnaryOperator

/-- The operator that a token writes; `await` is not among them, because it depends on the place. -/
def ofToken? : TokenKind → Option UnaryOperator
  | .punct .bang => some .logicalNot
  | .punct .tilde => some .bitwiseNot
  | .punct .plus => some .plus
  | .punct .minus => some .negation
  | .punct .inc => some .increment
  | .punct .dec => some .decrement
  | .word .typeofWord => some .typeOf
  | .word .voidWord => some .voidOf
  | .word .deleteWord => some .delete
  | _ => none

end UnaryOperator

/-- Operators written after their operand. -/
inductive StepOperator where
  | increment | decrement
  deriving DecidableEq, Inhabited, Repr

namespace StepOperator

def ofToken? : TokenKind → Option StepOperator
  | .punct .inc => some .increment
  | .punct .dec => some .decrement
  | _ => none

end StepOperator
end NameAudit
