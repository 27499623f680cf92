import NameAudit.Parser.Statement
import NameAudit.Proofs.Leads

/-!
An operand with nothing around it: where the token after it ends it (`TokenKind.EndsOperand`), it is read
alike by each rule for expressions up to assignments, and before an equals sign it is the target.
-/
namespace NameAudit

open Scan (token)
open Grammar (ofDepth)

namespace TokenKind

/-- The end of an item of a list, or of the text. -/
def EndsItem (kind : TokenKind) : Prop :=
  kind = .eof ∨ kind = .punct .comma ∨ kind = .punct .parenClose ∨ kind = .punct .bracketClose ∨
    kind = .punct .braceClose

/-- A token after which nothing belongs to the operand before it. -/
def EndsOperand (kind : TokenKind) : Prop := kind = .punct .assign ∨ kind.EndsItem

/-- The first token of a name, a number, or of anything in brackets, braces or parentheses. -/
def BeginsOperand (kind : TokenKind) : Prop :=
  kind = .identifier ∨ kind = .number ∨ kind = .punct .parenOpen ∨ kind = .punct .bracketOpen ∨
    kind = .punct .braceOpen

variable {kind : TokenKind}

theorem EndsItem.comma (same : kind = .punct .comma) : kind.EndsItem := .inr (.inl same)

theorem EndsItem.paren (same : kind = .punct .parenClose) : kind.EndsItem := .inr (.inr (.inl same))

theorem EndsItem.bracket (same : kind = .punct .bracketClose) : kind.EndsItem :=
  .inr (.inr (.inr (.inl same)))

theorem EndsItem.brace (same : kind = .punct .braceClose) : kind.EndsItem :=
  .inr (.inr (.inr (.inr same)))

theorem BeginsOperand.isSlash (begins : kind.BeginsOperand) : kind.isSlash = false := by
  rcases begins with rfl | rfl | rfl | rfl | rfl <;> rfl

end TokenKind

namespace Parser

/-- The end of the text is a token as well. -/
theorem token_end (n : Nat) : ∃ t, token .operator ⟨n, []⟩ = .ok (t, ⟨n, []⟩) ∧ t.kind = .eof :=
  ⟨_, Scan.token_eq_ok_iff.mpr ⟨{}, ⟨n, []⟩, .eof, by cbv, rfl, rfl⟩, rfl⟩

section
variable {text : List Char} {c c' d e f : Cursor} {t u : Token} {x value target : Expr} {n : Nat}

theorem leads_chain {g : Grammar} {ctx : Context} {calls : Bool} (after : token .operator d = .ok (u, e))
    (ends : u.kind.EndsOperand) : Leads text d (chain g ctx calls x) x d := by
  refine leads_loop_done ((leads_look after).bind ?_)
  rcases ends with same | same | same | same | same | same <;>
    · rw [same]
      exact leads_pure _ _

/-- The first token of an operand, where an operand is expected. -/
theorem leads_peekOperand (read : token .operator c = .ok (t, c')) (plain : t.kind.isSlash = false) :
    Leads text c peekOperand t c :=
  leads_look (Scan.token_expecting read plain)

theorem leads_leftHand (read : token .operator c = .ok (t, c')) (begins : t.kind.BeginsOperand)
    (after : token .operator d = .ok (u, e)) (ends : u.kind.EndsOperand)
    (alone : Leads text c (primary (ofDepth n) {}) x d) :
    Leads text c ((ofDepth (n + 1)).leftHand {}) x d := by
  have begin : Leads text c (chainStart (ofDepth n) {}) x d := by
    refine (leads_peekOperand read begins.isSlash).bind ?_
    rw [if_neg]
    · exact alone
    · rcases begins with same | same | same | same | same <;> rw [same] <;> decide
  exact begin.bind (leads_chain after ends)

theorem leads_unary (read : token .operator c = .ok (t, c')) (begins : t.kind.BeginsOperand)
    (after : token .operator d = .ok (u, e)) (ends : u.kind.EndsOperand)
    (alone : Leads text c (primary (ofDepth n) {}) x d) :
    Leads text c ((ofDepth (n + 2)).unary {}) x d := by
  have none : unaryOperator? {} t = none := by
    unfold unaryOperator?
    rcases begins with same | same | same | same | same <;> rw [same] <;> rfl
  have step : stepOperator? u = Option.none := by
    unfold stepOperator?
    rcases ends with same | same | same | same | same | same <;> rw [same] <;> exact ite_self _
  refine (leads_peekOperand read begins.isSlash).bind ?_
  rw [none]
  refine (leads_leftHand read begins after ends alone).bind ((leads_look after).bind ?_)
  rw [step]
  exact leads_pure _ _

theorem leads_conditional (read : token .operator c = .ok (t, c')) (begins : t.kind.BeginsOperand)
    (after : token .operator d = .ok (u, e)) (ends : u.kind.EndsOperand)
    (alone : Leads text c (primary (ofDepth n) {}) x d) :
    Leads text c (conditional (ofDepth (n + 3)) {}) x d := by
  have none : binaryOperator? {} 0 u = none := by
    unfold binaryOperator?
    rcases ends with same | same | same | same | same | same <;> rw [same] <;> rfl
  have binary : Leads text c ((ofDepth (n + 3)).binary {} 0) x d := by
    refine (leads_unary read begins after ends alone).bind (leads_loop_done ((leads_look after).bind ?_))
    rw [none]
    exact leads_pure _ _
  have other : u.kind ≠ .punct .question := by
    rcases ends with same | same | same | same | same | same <;> rw [same] <;> rintro ⟨⟩
  exact binary.bind ((leads_leave after other).bind (leads_pure _ _))

/-- An operand before the end of an item. -/
theorem leads_assignment (read : token .operator c = .ok (t, c')) (begins : t.kind.BeginsOperand)
    (after : token .operator d = .ok (u, e)) (ends : u.kind.EndsItem)
    (alone : Leads text c (primary (ofDepth n) {}) x d) :
    Leads text c ((ofDepth (n + 4)).assignment {}) x d := by
  refine (leads_peekOperand read begins.isSlash).bind ?_
  refine (leads_conditional read begins after (.inr ends) alone).bind ((leads_look after).bind ?_)
  rcases ends with same | same | same | same | same <;>
    · rw [same]
      exact leads_pure _ _

/-- An operand before an equals sign. -/
theorem leads_assignment_to (read : token .operator c = .ok (t, c')) (begins : t.kind.BeginsOperand)
    (equals : token .operator d = .ok (u, e)) (kind : u.kind = .punct .assign)
    (alone : Leads text c (primary (ofDepth n) {}) x d) (assigned : x.toTarget true = .ok target)
    (right : Leads text e ((ofDepth (n + 3)).assignment {}) value f) :
    Leads text c ((ofDepth (n + 4)).assignment {})
      (.assign (target.span.join value.span) .plain target value) f := by
  refine (leads_peekOperand read begins.isSlash).bind ?_
  refine (leads_conditional read begins equals (.inl kind) alone).bind ((leads_look equals).bind ?_)
  rw [kind]
  refine (leads_take equals).bind ((leads_ofExcept assigned e).bind ?_)
  exact right.bind (leads_pure _ _)

end
end Parser
end NameAudit
