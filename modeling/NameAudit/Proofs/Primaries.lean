import NameAudit.Proofs.Operands

/-!
A name, a parenthesis or a template before a token that does not go on with it
(`TokenKind.continuesOperand`): it is read alike by each rule between primary expressions and the operators,
and by the rule for assignments where nothing but the end of an item follows.
-/
namespace NameAudit

open Scan (token)
open Grammar (ofDepth)

namespace TokenKind

/-- A token that makes a link of a chain. -/
def linksChain : TokenKind → Bool
  | .punct .dot | .punct .questionDot | .punct .bracketOpen | .punct .parenOpen => true
  | .templateWhole | .templateHead => true
  | _ => false

/-- A token that goes on with the operand before it. -/
def continuesOperand : TokenKind → Bool
  | .punct .inc | .punct .dec | .punct .arrow | .identifier | .word .functionWord => true
  | kind => kind.linksChain

/-- The first token of a name, a parenthesis or a template. -/
def beginsPrimary : TokenKind → Bool
  | .identifier | .punct .parenOpen | .templateWhole | .templateHead => true
  | _ => false

variable {kind : TokenKind}

theorem linksChain_of_ends (ends : kind.continuesOperand = false) : kind.linksChain = false := by
  unfold continuesOperand at ends
  split at ends <;> first | cases ends | assumption

theorem EndsItem.continuesOperand (ends : kind.EndsItem) : kind.continuesOperand = false := by
  rcases ends with rfl | rfl | rfl | rfl | rfl <;> rfl

theorem isSlash_of_begins (begins : kind.beginsPrimary = true) : kind.isSlash = false := by
  unfold beginsPrimary at begins
  split at begins <;> first | rfl | cases begins

end TokenKind

namespace Parser

section
variable {text : List Char} {c c' d e : Cursor} {t u : Token} {x : Expr} {name : String} {n : Nat}

theorem leads_chain_end {g : Grammar} {ctx : Context} {calls : Bool}
    (after : token .operator d = .ok (u, e)) (ends : u.kind.linksChain = false) :
    Leads text d (chain g ctx calls x) x d := by
  refine leads_loop_done ((leads_look after).bind ?_)
  split
  case h_7 => exact leads_pure _ _
  all_goals
    rename_i same
    rw [same] at ends
    cases ends

/-- A name that nothing goes on with. -/
theorem leads_name {g : Grammar} {ctx : Context} (read : token .operator c = .ok (t, d))
    (names : t.Names name) (after : token .operator d = .ok (u, e))
    (ends : u.kind.continuesOperand = false) :
    Leads text c (primary g ctx) (.ident t.span name) d := by
  have alone : Leads text d (identifierOrArrow g t u) (.ident t.span name) d := by
    refine (leads_nameOf names d).bind ?_
    rw [if_neg]
    · exact leads_pure _ _
    · intro arrow
      rw [beq_iff_eq.mp arrow] at ends
      cases ends
  refine (leads_take (Scan.token_expecting read (by rw [names.1]; rfl))).bind ?_
  rw [names.1]
  refine (leads_look after).bind ?_
  split
  · split
    case h_4 => exact alone
    all_goals
      rename_i same
      rw [same] at ends
      cases ends
  · exact alone

theorem leads_unary_of_primary (read : token .operator c = .ok (t, c')) (begins : t.kind.beginsPrimary = true)
    (after : token .operator d = .ok (u, e)) (ends : u.kind.continuesOperand = false)
    (alone : Leads text c (primary (ofDepth n) {}) x d) :
    Leads text c ((ofDepth (n + 2)).unary {}) x d := by
  have first : token .operand c = .ok (t, c') :=
    Scan.token_expecting read (TokenKind.isSlash_of_begins begins)
  have none : unaryOperator? {} t = none := by
    unfold TokenKind.beginsPrimary at begins
    split at begins
    case h_5 => cases begins
    all_goals
      rename_i same
      rw [unaryOperator?, same]
      rfl
  have old : (t.kind == .word .newWord) = false := by
    apply Bool.eq_false_iff.mpr
    intro same
    rw [beq_iff_eq.mp same] at begins
    cases begins
  have step : stepOperator? u = Option.none := by
    unfold stepOperator?
    split
    · rfl
    · unfold StepOperator.ofToken?
      split
      case h_3 => rfl
      all_goals
        rename_i same
        rw [same] at ends
        cases ends
  have leftHand : Leads text c ((ofDepth (n + 1)).leftHand {}) x d := by
    have begin : Leads text c (chainStart (ofDepth n) {}) x d := by
      refine (leads_look first).bind ?_
      rw [if_neg (Bool.eq_false_iff.mp old)]
      exact alone
    exact begin.bind (leads_chain_end after (TokenKind.linksChain_of_ends ends))
  refine (leads_look first).bind ?_
  rw [none]
  refine leftHand.bind ((leads_look after).bind ?_)
  rw [step]
  exact leads_pure _ _

/-- Where nothing but the end of an item follows, a primary expression is an assignment. -/
theorem leads_assignment_of_primary (read : token .operator c = .ok (t, c'))
    (begins : t.kind.beginsPrimary = true) (after : token .operator d = .ok (u, e))
    (ends : u.kind.EndsItem) (alone : Leads text c (primary (ofDepth n) {}) x d) :
    Leads text c ((ofDepth (n + 4)).assignment {}) x d := by
  have unary := leads_unary_of_primary read begins after ends.continuesOperand alone
  have binary : Leads text c ((ofDepth (n + 3)).binary {} 0) x d := by
    refine unary.bind (leads_loop_done ((leads_look after).bind ?_))
    have none : binaryOperator? {} 0 u = none := by
      unfold binaryOperator?
      rcases ends with same | same | same | same | same <;> rw [same] <;> rfl
    rw [none]
    exact leads_pure _ _
  have question : u.kind ≠ .punct .question := by
    rcases ends with same | same | same | same | same <;> rw [same] <;> rintro ⟨⟩
  have whole : Leads text c (conditional (ofDepth (n + 3)) {}) x d :=
    binary.bind ((leads_leave after question).bind (leads_pure _ _))
  have first : token .operand c = .ok (t, c') := Scan.token_expecting read (TokenKind.isSlash_of_begins begins)
  refine (leads_look first).bind (whole.bind ((leads_look after).bind ?_))
  rcases ends with same | same | same | same | same <;>
    · rw [same]
      exact leads_pure _ _

end
end Parser
end NameAudit
