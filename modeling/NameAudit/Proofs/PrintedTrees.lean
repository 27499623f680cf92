import NameAudit.Proofs.OperatorTrees

/-!
Trees of operators, printed with single spaces and only the parentheses that precedence and associativity
ask for (`OperatorTree.print`). A printed tree is a text of operators (`OperatorTree.printed`), so that the
parser gives the tree back (`expression_of_print`).
-/
namespace NameAudit

open Grammar (ofDepth)
open Scan (token PlainName Blank EndsName)
open Text (byteLength)

/-! ### Printing -/

/-- How an operator is written. -/
def BinaryOperator.text : BinaryOperator → String
  | .nullishCoalescing => "??"
  | .logicalOr => "||"
  | .logicalAnd => "&&"
  | .bitwiseOr => "|"
  | .bitwiseXor => "^"
  | .bitwiseAnd => "&"
  | .equality => "=="
  | .inequality => "!="
  | .strictEquality => "==="
  | .strictInequality => "!=="
  | .lessThan => "<"
  | .lessThanOrEqual => "<="
  | .greaterThan => ">"
  | .greaterThanOrEqual => ">="
  | .within => "in"
  | .instanceOf => "instanceof"
  | .bitwiseLeftShift => "<<"
  | .bitwiseRightShift => ">>"
  | .bitwiseUnsignedRightShift => ">>>"
  | .addition => "+"
  | .subtraction => "-"
  | .multiplication => "*"
  | .division => "/"
  | .remainder => "%"
  | .exponentiation => "**"

/-- How an assignment is written. -/
def AssignmentOperator.text : AssignmentOperator → String
  | .plain => "="
  | .addition => "+="
  | .bitwiseAnd => "&="
  | .bitwiseLeftShift => "<<="
  | .bitwiseOr => "|="
  | .bitwiseRightShift => ">>="
  | .bitwiseUnsignedRightShift => ">>>="
  | .bitwiseXor => "^="
  | .division => "/="
  | .exponentiation => "**="
  | .logicalAnd => "&&="
  | .logicalOr => "||="
  | .multiplication => "*="
  | .nullishCoalescing => "??="
  | .remainder => "%="
  | .subtraction => "-="

/-- Where single spaces stand beside those around operators. -/
structure Spacing where
  insideParens : Bool
  beforeCommas : Bool

/-- A space, or nothing. -/
def Spacing.gap : Bool → List Char
  | true => [' ']
  | false => []

/-- Whether a tree stands at a place without parentheses. -/
def OperatorPlace.admits : OperatorPlace → OperatorTree → Bool
  | .list, _ => true
  | .item, .comma _ _ => false
  | .item, _ => true
  | .operand _, .name _ => true
  | .operand least, .binary op _ _ => least ≤ op.row
  | .operand _, _ => false

/-- The text of a tree at a place, in parentheses where it needs them. -/
def OperatorPlace.enclose (style : Spacing) (place : OperatorPlace) (tree : OperatorTree)
    (text : List Char) : List Char :=
  if place.admits tree then text
  else '(' :: (Spacing.gap style.insideParens ++ (text ++ (Spacing.gap style.insideParens ++ [')'])))

namespace OperatorTree

/-- A tree with single spaces around its operators. -/
def print (style : Spacing) : OperatorTree → List Char
  | .name n => n.chars
  | .binary op l r =>
    OperatorPlace.enclose style (.operand op.leftLeast) l (print style l) ++
      ' ' :: (op.text.toList ++ ' ' :: OperatorPlace.enclose style (.operand op.rightLeast) r (print style r))
  | .conditional t c a =>
    OperatorPlace.enclose style (.operand 1) t (print style t) ++
      ' ' :: '?' :: ' ' :: (OperatorPlace.enclose style .item c (print style c) ++
        ' ' :: ':' :: ' ' :: OperatorPlace.enclose style .item a (print style a))
  | .assign op n v => n.chars ++ ' ' :: (op.text.toList ++ ' ' :: OperatorPlace.enclose style .item v (print style v))
  | .comma l r =>
    print style l ++ (Spacing.gap style.beforeCommas ++
      ',' :: ' ' :: OperatorPlace.enclose style .item r (print style r))

end OperatorTree

/-! ### Tokens -/

section
variable {us rest : List Char} {o : Nat}

theorem blank_gap (space : Bool) : Blank (Spacing.gap space) := by
  cases space with
  | false => exact Scan.blank_nil
  | true => exact Scan.blank_singleton (by decide)

/-- The signs of a conditional expression between spaces. -/
theorem token_question (rest : List Char) : ∃ t, token .operator ⟨o, ' ' :: '?' :: ' ' :: rest⟩ =
    .ok (t, ⟨o + 2, ' ' :: rest⟩) ∧ t.kind = .punct .question :=
  Scan.token_fixed (blank_gap true) (rfl : (TokenKind.punct .question).text? = some "?") rest

theorem token_colon (rest : List Char) : ∃ t, token .operator ⟨o, ' ' :: ':' :: ' ' :: rest⟩ =
    .ok (t, ⟨o + 2, ' ' :: rest⟩) ∧ t.kind = .punct .colon :=
  Scan.token_fixed (blank_gap true) (rfl : (TokenKind.punct .colon).text? = some ":") rest

/-- A binary operator between spaces. -/
theorem BinaryOperator.token_text (op : BinaryOperator) (rest : List Char) :
    ∃ t, token .operator ⟨o, ' ' :: (op.text.toList ++ ' ' :: rest)⟩ =
        .ok (t, ⟨o + 1 + byteLength op.text.toList, ' ' :: rest⟩) ∧
      BinaryOperator.ofToken? t.kind = some op := by
  have spelled : ∃ kind : TokenKind, kind.text? = some op.text ∧ BinaryOperator.ofToken? kind = some op := by
    cases op with
    | nullishCoalescing => exact ⟨.punct .nullish, rfl, rfl⟩
    | logicalOr => exact ⟨.punct .pipePipe, rfl, rfl⟩
    | logicalAnd => exact ⟨.punct .ampAmp, rfl, rfl⟩
    | bitwiseOr => exact ⟨.punct .pipe, rfl, rfl⟩
    | bitwiseXor => exact ⟨.punct .caret, rfl, rfl⟩
    | bitwiseAnd => exact ⟨.punct .amp, rfl, rfl⟩
    | equality => exact ⟨.punct .eq, rfl, rfl⟩
    | inequality => exact ⟨.punct .bangEq, rfl, rfl⟩
    | strictEquality => exact ⟨.punct .strictEq, rfl, rfl⟩
    | strictInequality => exact ⟨.punct .strictNotEq, rfl, rfl⟩
    | lessThan => exact ⟨.punct .lt, rfl, rfl⟩
    | lessThanOrEqual => exact ⟨.punct .ltEq, rfl, rfl⟩
    | greaterThan => exact ⟨.punct .gt, rfl, rfl⟩
    | greaterThanOrEqual => exact ⟨.punct .gtEq, rfl, rfl⟩
    | within => exact ⟨.word .inWord, rfl, rfl⟩
    | instanceOf => exact ⟨.word .instanceofWord, rfl, rfl⟩
    | bitwiseLeftShift => exact ⟨.punct .shl, rfl, rfl⟩
    | bitwiseRightShift => exact ⟨.punct .shr, rfl, rfl⟩
    | bitwiseUnsignedRightShift => exact ⟨.punct .uShr, rfl, rfl⟩
    | addition => exact ⟨.punct .plus, rfl, rfl⟩
    | subtraction => exact ⟨.punct .minus, rfl, rfl⟩
    | multiplication => exact ⟨.punct .star, rfl, rfl⟩
    | division => exact ⟨.punct .slash, rfl, rfl⟩
    | remainder => exact ⟨.punct .percent, rfl, rfl⟩
    | exponentiation => exact ⟨.punct .starStar, rfl, rfl⟩
  obtain ⟨kind, fixed, writes⟩ := spelled
  obtain ⟨t, read, same⟩ := Scan.token_fixed (o := o) (blank_gap true) fixed rest
  exact ⟨t, read, by rw [same, writes]⟩

/-- An assignment operator between spaces. -/
theorem AssignmentOperator.token_text (op : AssignmentOperator) (rest : List Char) :
    ∃ t, token .operator ⟨o, ' ' :: (op.text.toList ++ ' ' :: rest)⟩ =
        .ok (t, ⟨o + 1 + byteLength op.text.toList, ' ' :: rest⟩) ∧
      AssignmentOperator.ofToken? t.kind = some op := by
  have spelled : ∃ kind : TokenKind,
      kind.text? = some op.text ∧ AssignmentOperator.ofToken? kind = some op := by
    cases op with
    | plain => exact ⟨.punct .assign, rfl, rfl⟩
    | addition => exact ⟨.punct .plusAssign, rfl, rfl⟩
    | bitwiseAnd => exact ⟨.punct .ampAssign, rfl, rfl⟩
    | bitwiseLeftShift => exact ⟨.punct .shlAssign, rfl, rfl⟩
    | bitwiseOr => exact ⟨.punct .pipeAssign, rfl, rfl⟩
    | bitwiseRightShift => exact ⟨.punct .shrAssign, rfl, rfl⟩
    | bitwiseUnsignedRightShift => exact ⟨.punct .uShrAssign, rfl, rfl⟩
    | bitwiseXor => exact ⟨.punct .caretAssign, rfl, rfl⟩
    | division => exact ⟨.punct .slashAssign, rfl, rfl⟩
    | exponentiation => exact ⟨.punct .starStarAssign, rfl, rfl⟩
    | logicalAnd => exact ⟨.punct .ampAmpAssign, rfl, rfl⟩
    | logicalOr => exact ⟨.punct .pipePipeAssign, rfl, rfl⟩
    | multiplication => exact ⟨.punct .starAssign, rfl, rfl⟩
    | nullishCoalescing => exact ⟨.punct .nullishAssign, rfl, rfl⟩
    | remainder => exact ⟨.punct .percentAssign, rfl, rfl⟩
    | subtraction => exact ⟨.punct .minusAssign, rfl, rfl⟩
  obtain ⟨kind, fixed, writes⟩ := spelled
  obtain ⟨t, read, same⟩ := Scan.token_fixed (o := o) (blank_gap true) fixed rest
  exact ⟨t, read, by rw [same, writes]⟩

end

/-! ### Printed trees -/

/-- A text stands for a tree at a place, after any blanks and before anything that does not go on with a
name. -/
def WrittenAt (place : OperatorPlace) (tree : OperatorTree) (cs : List Char) : Prop :=
  ∀ us rest o stop, Blank us → EndsName rest → stop = o + byteLength us + byteLength cs →
    OperatorText place tree ⟨o, us ++ (cs ++ rest)⟩ ⟨stop, rest⟩

section
variable {place : OperatorPlace} {tree l r : OperatorTree} {cs vs ws : List Char}

theorem WrittenAt.of_operand (operand : ∀ least, place = .operand least → WrittenAt (.operand least) tree cs)
    (first : WrittenAt (.operand 1) tree cs) : WrittenAt place tree cs := by
  intro us rest o stop blank ends total
  cases place with
  | operand least => exact operand least rfl us rest o stop blank ends total
  | item => exact .item (first us rest o stop blank ends total)
  | list => exact .single (.item (first us rest o stop blank ends total))

theorem WrittenAt.of_item (outside : ∀ least, place ≠ .operand least) (item : WrittenAt .item tree cs) :
    WrittenAt place tree cs := by
  intro us rest o stop blank ends total
  cases place with
  | operand least => exact absurd rfl (outside least)
  | item => exact item us rest o stop blank ends total
  | list => exact .single (item us rest o stop blank ends total)

theorem utf8Size_signs : ' '.utf8Size = 1 ∧ '('.utf8Size = 1 ∧ ')'.utf8Size = 1 ∧ ','.utf8Size = 1 ∧
    '?'.utf8Size = 1 ∧ ':'.utf8Size = 1 := by decide

/-- A tree in parentheses is an operand. -/
theorem writtenAt_paren (space : Bool) (list : WrittenAt .list tree cs) (least : Nat) :
    WrittenAt (.operand least) tree
      ('(' :: (Spacing.gap space ++ (cs ++ (Spacing.gap space ++ [')'])))) := by
  intro us rest o stop blank ends total
  have closes : (')', Punctuator.parenClose) ∈ Scan.brackets := by decide
  simp only [List.append_assoc, List.cons_append, List.nil_append]
  obtain ⟨t, opening, opens, -⟩ := Scan.token_bracket (o := o) blank
    (by decide : ('(', Punctuator.parenOpen) ∈ Scan.brackets)
    (Spacing.gap space ++ (cs ++ (Spacing.gap space ++ ')' :: rest)))
  let o₁ := o + byteLength us + 1 + byteLength (Spacing.gap space) + byteLength cs
  have inside := list (Spacing.gap space) (Spacing.gap space ++ ')' :: rest) _ o₁ (blank_gap space)
    ((Scan.endsName_bracket closes rest).after_blank (blank_gap space)) rfl
  obtain ⟨u, closing, kind, -⟩ := Scan.token_bracket (o := o₁) (blank_gap space) closes rest
  have stop' : stop = o₁ + byteLength (Spacing.gap space) + 1 := by
    simp only [total, byteLength, Text.byteLength_append, utf8Size_signs, o₁]
    omega
  rw [stop']
  exact .paren opening opens inside closing kind

theorem writtenAt_enclose (style : Spacing)
    (bare : ∀ place, OperatorPlace.admits place tree = true → WrittenAt place tree cs)
    (place : OperatorPlace) : WrittenAt place tree (place.enclose style tree cs) := by
  unfold OperatorPlace.enclose
  by_cases admits : place.admits tree = true
  · rw [if_pos admits]
    exact bare place admits
  · rw [if_neg admits]
    have paren := writtenAt_paren style.insideParens (bare .list rfl)
    exact .of_operand (fun least _ => paren least) (paren 1)

theorem writtenAt_name (n : PlainName) : WrittenAt place (.name n) n.chars := by
  have operand (least : Nat) : WrittenAt (.operand least) (.name n) n.chars := by
    intro us rest o stop blank ends total
    obtain ⟨t, read, names⟩ := Scan.token_name (o := o) blank n ends
    rw [total]
    exact .name read names
  exact .of_operand (fun least _ => operand least) (operand 1)

theorem writtenAt_binary {op : BinaryOperator} (left : WrittenAt (.operand op.leftLeast) l cs)
    (right : WrittenAt (.operand op.rightLeast) r vs) (admits : place.admits (.binary op l r) = true) :
    WrittenAt place (.binary op l r) (cs ++ ' ' :: (op.text.toList ++ ' ' :: vs)) := by
  have operand (least : Nat) (tight : least ≤ op.row) :
      WrittenAt (.operand least) (.binary op l r) (cs ++ ' ' :: (op.text.toList ++ ' ' :: vs)) := by
    intro us rest o stop blank ends total
    simp only [List.append_assoc, List.cons_append]
    obtain ⟨t, read, writes⟩ := op.token_text (o := o + byteLength us + byteLength cs) (vs ++ rest)
    refine .binary tight (left us _ o _ blank (Scan.endsName_space _) rfl) read writes ?_
    refine right [' '] rest _ stop (blank_gap true) ends ?_
    simp only [total, Text.byteLength_append, byteLength, utf8Size_signs]
    omega
  refine .of_operand (fun least same => operand least ?_) (operand 1 (Nat.le_add_left 1 _))
  rw [same] at admits
  simpa [OperatorPlace.admits] using admits

theorem writtenAt_conditional {test consequent alternate : OperatorTree}
    (first : WrittenAt (.operand 1) test cs) (second : WrittenAt .item consequent vs)
    (third : WrittenAt .item alternate ws) (admits : place.admits (.conditional test consequent alternate) = true) :
    WrittenAt place (.conditional test consequent alternate)
      (cs ++ ' ' :: '?' :: ' ' :: (vs ++ ' ' :: ':' :: ' ' :: ws)) := by
  refine .of_item (by rintro least rfl; cases admits) ?_
  intro us rest o stop blank ends total
  simp only [List.append_assoc, List.cons_append]
  let o₁ := o + byteLength us + byteLength cs
  let o₂ := o₁ + 2 + 1 + byteLength vs
  obtain ⟨t, question, asks⟩ := token_question (o := o₁) (vs ++ ' ' :: ':' :: ' ' :: (ws ++ rest))
  obtain ⟨u, colon, separates⟩ := token_colon (o := o₂) (ws ++ rest)
  refine .conditional (first us _ o _ blank (Scan.endsName_space _) rfl) question asks
    (second [' '] _ _ o₂ (blank_gap true) (Scan.endsName_space _) rfl) colon separates
    (third [' '] rest _ stop (blank_gap true) ends ?_)
  simp only [total, Text.byteLength_append, byteLength, utf8Size_signs, o₁, o₂]
  omega

theorem writtenAt_assign {op : AssignmentOperator} {n : PlainName} {value : OperatorTree}
    (second : WrittenAt .item value vs) (admits : place.admits (.assign op n value) = true) :
    WrittenAt place (.assign op n value) (n.chars ++ ' ' :: (op.text.toList ++ ' ' :: vs)) := by
  refine .of_item (by rintro least rfl; cases admits) ?_
  intro us rest o stop blank ends total
  simp only [List.append_assoc, List.cons_append]
  obtain ⟨t, read, names⟩ := Scan.token_name (o := o) blank n
    (Scan.endsName_space (op.text.toList ++ ' ' :: (vs ++ rest)))
  obtain ⟨u, sign, writes⟩ := op.token_text (o := o + byteLength us + byteLength n.chars) (vs ++ rest)
  refine .assign read names sign writes (second [' '] rest _ stop (blank_gap true) ends ?_)
  simp only [total, Text.byteLength_append, byteLength, utf8Size_signs]
  omega

theorem writtenAt_comma (space : Bool) (before : WrittenAt .list l cs) (last : WrittenAt .item r vs)
    (admits : place.admits (.comma l r) = true) :
    WrittenAt place (.comma l r) (cs ++ (Spacing.gap space ++ ',' :: ' ' :: vs)) := by
  obtain rfl : place = .list := by
    cases place with
    | list => rfl
    | item => cases admits
    | operand least => cases admits
  intro us rest o stop blank ends total
  have separates : (',', Punctuator.comma) ∈ Scan.brackets := by decide
  simp only [List.append_assoc, List.cons_append]
  let o₁ := o + byteLength us + byteLength cs
  obtain ⟨t, read, kind, -⟩ := Scan.token_bracket (o := o₁) (blank_gap space) separates (' ' :: (vs ++ rest))
  refine .comma (before us _ o o₁ blank
    ((Scan.endsName_bracket separates _).after_blank (blank_gap space)) rfl) read kind ?_
  refine last [' '] rest _ stop (blank_gap true) ends ?_
  simp only [total, Text.byteLength_append, byteLength, utf8Size_signs, o₁]
  omega

/-- A printed tree is a text of operators at each place that asks for no parentheses around it. -/
theorem OperatorTree.printed (style : Spacing) (tree : OperatorTree) :
    ∀ place, OperatorPlace.admits place tree = true → WrittenAt place tree (tree.print style) := by
  induction tree with
  | name n => exact fun place _ => writtenAt_name n
  | binary op l r ihLeft ihRight =>
    exact fun place => writtenAt_binary (writtenAt_enclose style ihLeft _) (writtenAt_enclose style ihRight _)
  | conditional test consequent alternate ihFirst ihSecond ihThird =>
    exact fun place => writtenAt_conditional (writtenAt_enclose style ihFirst _)
      (writtenAt_enclose style ihSecond _) (writtenAt_enclose style ihThird _)
  | assign op n value ih => exact fun place => writtenAt_assign (writtenAt_enclose style ih _)
  | comma l r ihLeft ihRight =>
    exact fun place => writtenAt_comma style.beforeCommas (ihLeft .list rfl) (writtenAt_enclose style ihRight _)

end

/-- A printed tree is read whole and as the tree. -/
theorem expression_of_print (style : Spacing) (tree : OperatorTree) :
    ∃ e s, Parser.expression (Grammar.forSource (tree.print style)) {} (.ofSource (tree.print style)) =
        .ok (e, s) ∧
      tree.Denotes e ∧ s.prevEnd = byteLength (tree.print style) := by
  let text := tree.print style
  have nothing : EndsName [] := by rintro ch tail ⟨⟩
  have written : OperatorText .list tree ⟨0, [] ++ (text ++ [])⟩ ⟨byteLength text, []⟩ :=
    tree.printed style .list rfl [] [] 0 _ Scan.blank_nil nothing (by simp [byteLength, text])
  rw [List.nil_append, List.append_nil] at written
  obtain ⟨u, after, ended⟩ := Parser.token_end (byteLength text)
  obtain ⟨x, denotes, onward⟩ := (written.reads text).1 (8 * (text.length + 1)) u _ (by simp only; omega) after
    (.inl ended)
  have other : u.kind ≠ .punct .comma := by
    rw [ended]
    rintro ⟨⟩
  obtain ⟨s, done, stands⟩ := onward x _
    (Parser.leads_loop_done ((Parser.leads_leave after other).bind (Parser.leads_pure _ _)))
    (.ofSource text) (ParserState.at_ofSource text)
  exact ⟨x, s, done, denotes, stands.prevEnd⟩

/-- Exponentiation groups to the right, and a comma stands in parentheses on the right of an operator. -/
example :
    let a : OperatorTree := .name ⟨['a'], ⟨'a', [], rfl, by decide⟩, List.all_eq_true.mp (by decide), by decide⟩
    let power := OperatorTree.binary .exponentiation
    (power (power a a) (power a (.comma a a))).print ⟨false, false⟩ = "(a ** a) ** a ** (a, a)".toList := by
  decide

end NameAudit
