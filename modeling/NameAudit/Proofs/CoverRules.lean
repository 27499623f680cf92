import NameAudit.Proofs.FunctionRules
import NameAudit.Proofs.Operands

/-!
How the rules for the members of objects and for the elements of arrays read what can be a pattern: the
first token of a key is no modifier when the key ends after it, and a turn for an element goes on after it
as after any other.
-/
namespace NameAudit

open Scan (token)

namespace Parser

section
variable {α : Type} {text : List Char} {c d e f : Cursor} {t u : Token} {a : α} {p : Parser α} {n : Nat}

/-- What a parser does at a position can be shown from any parser that stands there. -/
theorem leads_of_state (leads : ∀ s : ParserState, s.At text c → Leads text c p a d) :
    Leads text c p a d :=
  fun s stands => leads s stands s stands

/-! ### Keys and modifiers -/

theorem unexpected_ne_ok {what : String} {s : ParserState} {answer : α × ParserState} :
    unexpected t what s ≠ .ok answer := by
  unfold unexpected
  split
  · rintro ⟨⟩
  · rintro ⟨⟩

/-- A key begins with the first token of a key. -/
theorem startsKey_of_key {g : Grammar} {k : Key} {s : ParserState} (stands : s.At text c)
    (read : token .operator c = .ok (t, e)) (leads : Leads text c (key g {} false) k d) :
    startsKey t false = true := by
  obtain ⟨_, done, -⟩ := leads s stands
  obtain ⟨s', took, -⟩ := leads_take read s stands
  unfold key consume at done
  simp only [bind, StateT.bind, Except.bind, took] at done
  cases kind : t.kind with
  | punct sign =>
    rw [kind] at done
    cases sign <;> first | exact absurd done unexpected_ne_ok | simp [startsKey, kind]
  | string | number | bigInt => simp [startsKey, kind]
  | word | identifier => simp [startsKey, kind, TokenKind.isIdentifierName]
  | _ =>
    rw [kind] at done
    exact absurd done unexpected_ne_ok

theorem startsKey_of_identifier (name : t.kind = .identifier) (inClass : Bool) :
    startsKey t inClass = true := by
  simp [startsKey, name, TokenKind.isIdentifierName]

/-- A sign other than an opening bracket begins no key. -/
theorem startsKey_of_punct {sign : Punctuator} (kind : t.kind = .punct sign) (other : sign ≠ .bracketOpen) :
    startsKey t false = false := by
  simp [startsKey, kind, TokenKind.isIdentifierName, other]

theorem ne_punct_of_startsKey {sign : Punctuator} (starts : startsKey t false = true)
    (other : sign ≠ .bracketOpen) : t.kind ≠ .punct sign := by
  intro kind
  rw [startsKey_of_punct kind other] at starts
  cases starts

/-- A first token of a key is not taken as a modifier, because the key ends after it. -/
def KeyAlone (c : Cursor) (t : Token) (d : Cursor) : Prop :=
  token .operator c = .ok (t, d) ∧ startsKey t false = true ∧
    (t.kind = .identifier → ∃ u e sign, token .operator d = .ok (u, e) ∧ u.kind = .punct sign ∧
      sign ≠ .bracketOpen ∧ sign ≠ .star)

theorem leads_modifier (alone : KeyAlone c t d) (word : String) (star : Bool) :
    Leads text c (modifier word false star) false c := by
  obtain ⟨read, starts, after⟩ := alone
  refine (leads_look read).bind ?_
  split
  next same =>
    have name := isIdentifier_of_isWord same
    obtain ⟨u, e, sign, next, kind, other, unstarred⟩ := after name
    have first : token .operand c = .ok (t, d) := Scan.token_expecting read (by rw [name]; rfl)
    refine (leads_peekSecond first next).bind ?_
    rw [startsKey_of_punct kind other, kind]
    simpa [unstarred] using leads_pure _ _
  · exact leads_pure _ _

theorem leads_asyncModifier (alone : KeyAlone c t d) :
    Leads text c (asyncModifier false) false c := by
  obtain ⟨read, starts, after⟩ := id alone
  refine (leads_look read).bind ?_
  split
  next same =>
    have name := isIdentifier_of_isWord same
    obtain ⟨u, e, sign, next, -⟩ := after name
    have first : token .operand c = .ok (t, d) := Scan.token_expecting read (by rw [name]; rfl)
    refine (leads_peekSecond first next).bind ?_
    split
    · exact leads_pure _ _
    · exact leads_modifier alone _ _
  · exact leads_pure _ _

theorem leads_modifiers (alone : KeyAlone c t d) : Leads text c (modifiers false) {} c := by
  have unstarred : t.kind ≠ .punct .star := ne_punct_of_startsKey alone.2.1 (by rintro ⟨⟩)
  have access : Leads text c (accessModifier false) none c :=
    (leads_modifier alone "get" false).bind ((leads_modifier alone "set" false).bind (leads_pure _ _))
  refine (leads_pure false c).bind ((leads_asyncModifier alone).bind (access.bind ?_))
  exact (leads_leave alone.1 unstarred).bind (leads_pure _ _)

/-! ### Members -/

theorem leads_identifierKey {g : Grammar} {name : String} (read : token .operator c = .ok (t, d))
    (names : t.Names name) : Leads text c (key g {} false) (.direct name) d := by
  refine (leads_take read).bind ?_
  rw [names.1]
  exact (leads_nameOf names d).bind (leads_pure _ _)

theorem leads_member {g : Grammar} {k : Key} {m : Member} (alone : KeyAlone c t e)
    (keyed : Leads text c (key g {} false) k d)
    (rest : Leads text d (memberRest g {} t.span.start {} t k) m f) :
    Leads text c (member g {}) m f := by
  have unspread : t.kind ≠ .punct .ellipsis := ne_punct_of_startsKey alone.2.1 (by rintro ⟨⟩)
  refine (leads_look alone.1).bind ((leads_leave alone.1 unspread).bind ?_)
  exact (leads_modifiers alone).bind ((leads_look alone.1).bind (keyed.bind rest))

theorem leads_memberRest_value {g : Grammar} {k : Key} {x : Expr} (start : Nat)
    (colon : token .operator d = .ok (u, e)) (splits : u.kind = .punct .colon)
    (value : Leads text e (g.assignment {}) x f) :
    Leads text d (memberRest g {} start {} t k)
      (.property ⟨start, max f.offset start⟩ k (.value (some x))) f := by
  refine (leads_look colon).bind ?_
  rw [splits]
  exact (leads_take colon).bind (value.bind ((leads_since _ _).bind (leads_pure _ _)))

theorem leads_memberRest_default {g : Grammar} {name : String} {x : Expr} (start : Nat)
    (names : t.Names name) (equals : token .operator d = .ok (u, e)) (kind : u.kind = .punct .assign)
    (value : Leads text e (g.assignment {}) x f) :
    Leads text d (memberRest g {} start {} t (.direct name))
      (.property ⟨start, max f.offset start⟩ (.direct name) (.value (some (defaultedValue t name x)))) f := by
  refine (leads_look equals).bind ?_
  rw [kind, names.1]
  exact (leads_take equals).bind (value.bind ((leads_since _ _).bind (leads_pure _ _)))

theorem leads_memberRest_shorthand {g : Grammar} {name : String} (start : Nat) (names : t.Names name)
    (after : token .operator d = .ok (u, e))
    (ends : u.kind = .punct .comma ∨ u.kind = .punct .braceClose) :
    Leads text d (memberRest g {} start {} t (.direct name))
      (.shorthand ⟨start, max d.offset start⟩ name t.span) d := by
  refine (leads_look after).bind ?_
  rcases ends with kind | kind
  · rw [kind, names.1]
    exact (leads_since _ _).bind (leads_pure _ _)
  · rw [kind, names.1]
    exact (leads_since _ _).bind (leads_pure _ _)

theorem leads_spread {g : Grammar} {x : Expr} (dots : token .operator c = .ok (t, d))
    (spreads : t.kind = .punct .ellipsis) (value : Leads text d (g.assignment {}) x e) :
    Leads text c (member g {}) (.spread ⟨t.span.start, max e.offset t.span.start⟩ x) e := by
  refine (leads_look dots).bind ((leads_eat dots spreads).bind ?_)
  exact value.bind ((leads_since _ _).bind (leads_pure _ _))

/-! ### Elements -/

section
variable {g : Grammar} {read : List Element} {x : Expr}

theorem leads_arrayTurn_close (closing : token .operator c = .ok (t, d))
    (closes : t.kind = .punct .bracketClose) : Leads text c (arrayTurn g {} read) (.done read) d := by
  refine (leads_peekOperand closing (by rw [closes]; rfl)).bind ?_
  rw [closes]
  exact (leads_take closing).bind (leads_pure _ _)

theorem leads_arrayTurn_hole (comma : token .operator c = .ok (t, d))
    (separates : t.kind = .punct .comma) :
    Leads text c (arrayTurn g {} read) (.again (read ++ [.hole])) d := by
  refine (leads_peekOperand comma (by rw [separates]; rfl)).bind ?_
  rw [separates]
  exact (leads_take comma).bind (leads_pure _ _)

/-- What a turn answers after an element. -/
theorem leads_arrayTurn_item {answer : Turn (List Element) (List Element)}
    (first : token .operator c = .ok (t, d))
    (begins : t.kind = .identifier ∨ t.kind = .punct .bracketOpen ∨ t.kind = .punct .braceOpen)
    (value : Leads text c (g.assignment {}) x e)
    (rest : Leads text e (afterItem .bracketClose (.again (read ++ [.item x])) (.done (read ++ [.item x])))
      answer f) : Leads text c (arrayTurn g {} read) answer f := by
  have plain : t.kind.isSlash = false := by
    rcases begins with kind | kind | kind <;> rw [kind] <;> rfl
  refine (leads_peekOperand first plain).bind ?_
  rcases begins with kind | kind | kind <;>
    · rw [kind]
      exact value.bind rest

theorem leads_arrayTurn_rest (dots : token .operator c = .ok (t, d)) (spreads : t.kind = .punct .ellipsis)
    (value : Leads text d (g.assignment {}) x e) (closing : token .operator e = .ok (u, f))
    (closes : u.kind = .punct .bracketClose) :
    Leads text c (arrayTurn g {} read) (.done (read ++ [.spread x])) f := by
  refine (leads_peekOperand dots (by rw [spreads]; rfl)).bind ?_
  rw [spreads]
  refine (leads_take dots).bind (value.bind ((leads_pure _ _).bind ?_))
  exact leads_close (by rintro ⟨⟩) closing closes

end

end
end Parser
end NameAudit
