import NameAudit.Proofs.StatementRules

/-!
The parser always goes on. From any state that stands at a position of a text, a rule that gives an answer
has taken a character and stays within the text (`RulesAdvance`), and so does a turn of a loop that asks for
another one (`TurnsAdvance`), whatever was read before; at the end of the text, every rule fails, and every
turn fails or ends its loop. No rule and no turn gives up for lack of depth, so that the parser gives a tree
or an error of the text (`parse_progresses`).
-/
namespace NameAudit

open NameAudit.Parser

/-! ### Going on -/

/-- A state of a parser that stands at a position of a text. The first state does, and every rule leads to
such states only. -/
def ParserState.Within (source : List Char) (s : ParserState) : Prop := ∃ c, s.At source c

/-- A parser that gives an error of the text, or an answer after going on in the text. -/
def Parser.Advances {α : Type} (source : List Char) (s : ParserState) (p : Parser α) : Prop :=
  match p s with
  | .ok (_, t) => t.Within source ∧ s.prevEnd < t.prevEnd ∧ t.prevEnd ≤ Text.byteLength source
  | .error e => e ≠ .exhausted

/-- A turn of a loop that gives an error of the text, ends the loop, or asks for another turn after going on
in the text. -/
def Parser.TurnAdvances {σ β : Type} (source : List Char) (s : ParserState) (turn : Parser (Turn σ β)) :
    Prop :=
  match turn s with
  | .ok (.again _, t) => t.Within source ∧ s.prevEnd < t.prevEnd ∧ t.prevEnd ≤ Text.byteLength source
  | .ok (.done _, t) => t.Within source ∧ s.prevEnd ≤ t.prevEnd ∧ t.prevEnd ≤ Text.byteLength source
  | .error e => e ≠ .exhausted

/-- From a state, every rule for statements, expressions, patterns, keys and members goes on. -/
structure Grammar.RulesAdvance (source : List Char) (s : ParserState) (g : Grammar) : Prop where
  statement : ∀ ctx, Advances source s (g.statement ctx)
  expression : ∀ ctx, Advances source s (expression g ctx)
  assignment : ∀ ctx, Advances source s (g.assignment ctx)
  leftHand : ∀ ctx, Advances source s (g.leftHand ctx)
  pattern : ∀ ctx, Advances source s (g.pattern ctx)
  key : ∀ ctx inClass, Advances source s (key g ctx inClass)
  /-- A member of an object literal. -/
  member : ∀ ctx, Advances source s (member g ctx)
  method : ∀ m, Advances source s (method g m)
  classMember : Advances source s (classMember g)
  staticBlock : Advances source s (staticBlock g)

/-- From a state, every turn of a loop goes on, whatever the loop has read before. -/
structure Grammar.TurnsAdvance (source : List Char) (s : ParserState) (g : Grammar) : Prop where
  statements : ∀ ctx stop body, TurnAdvances source s (statementsTurn g ctx stop body)
  branches : ∀ ctx read, TurnAdvances source s (branchesTurn g ctx read)
  branchBody : ∀ ctx body, TurnAdvances source s (branchBodyTurn g ctx body)
  declarators : ∀ ctx read, TurnAdvances source s (declaratorsTurn g ctx read)
  classMembers : ∀ read, TurnAdvances source s (classMembersTurn g read)
  members : ∀ ctx read, TurnAdvances source s (itemsTurn .braceClose (listItem (member g ctx)) read)
  elements : ∀ ctx read, TurnAdvances source s (arrayTurn g ctx read)
  arrayPattern : ∀ ctx read, TurnAdvances source s (arrayPatternTurn g ctx read)
  objectPattern : ∀ ctx read, TurnAdvances source s (objectPatternTurn g ctx read)
  arguments : ∀ ctx read, TurnAdvances source s (itemsTurn .parenClose (listItem (argument g ctx)) read)
  parameters : ∀ ctx read, TurnAdvances source s (itemsTurn .parenClose (parameter g ctx) read)
  parenthesised : ∀ ctx read, TurnAdvances source s (itemsTurn .parenClose (parenItem g ctx) read)
  chain : ∀ ctx calls start e, TurnAdvances source s (chainTurn g ctx calls start e)
  binary : ∀ ctx level left, TurnAdvances source s (binaryTurn g ctx level left)
  expression : ∀ ctx left, TurnAdvances source s (expressionTurn g ctx left)
  template : ∀ ctx read, TurnAdvances source s (substitutionsTurn g ctx read)

/-! ### From the way a parser runs -/

namespace Parser

section
variable {α β σ : Type} {source : List Char} {s : ParserState} {c : Cursor}

/-- A parser goes on that takes a character. -/
theorem Runs.advances {p p' : Parser α} {Q : α → Cursor → Prop} (runs : Runs (.alone source) c p p' Q)
    (takes : ∀ a d, Q a d → d.rest.length < c.rest.length) (stands : s.At source c) :
    Advances source s p := by
  have outcome := runs.outcome stands
  unfold Advances
  cases call : p s with
  | error e =>
    rw [call] at outcome
    exact outcome.ne_exhausted
  | ok answer =>
    obtain ⟨a, t⟩ := answer
    rw [call] at outcome
    obtain ⟨d, there, way, holds⟩ := outcome
    dsimp only
    rw [stands.prevEnd, there.prevEnd]
    exact ⟨⟨d, there⟩, (Scan.reaches_of_takes way).offset_lt (takes a d holds),
      there.reached.offset_le_byteLength⟩

/-- A turn goes on that takes a character before it asks for another one. -/
theorem Runs.turnAdvances {turn turn' : Parser (Turn σ β)} {I : σ → Cursor → Prop}
    {R : β → Cursor → Prop} {x : σ} (runs : Runs (.alone source) c turn turn' (Keeps I R x c))
    (stands : s.At source c) : TurnAdvances source s turn := by
  have outcome := runs.outcome stands
  unfold TurnAdvances
  cases call : turn s with
  | error e =>
    rw [call] at outcome
    exact outcome.ne_exhausted
  | ok answer =>
    obtain ⟨r, t⟩ := answer
    rw [call] at outcome
    obtain ⟨d, there, way, holds⟩ := outcome
    have reaches := Scan.reaches_of_takes way
    cases r with
    | again y =>
      dsimp only
      rw [stands.prevEnd, there.prevEnd]
      exact ⟨⟨d, there⟩, reaches.offset_lt holds.2, there.reached.offset_le_byteLength⟩
    | done b =>
      dsimp only
      rw [stands.prevEnd, there.prevEnd]
      exact ⟨⟨d, there⟩, reaches.offset_le, there.reached.offset_le_byteLength⟩

end
end Parser

/-! ### All rules and all loops -/

section
variable {source : List Char} {s : ParserState} {c : Cursor} {g : Grammar} {n : Nat}

theorem Grammar.Serves.rulesAdvance (serves : g.Serves (.alone source) (fun _ => True) g n)
    (stands : s.At source c) (fits : 8 * c.rest.length + 6 ≤ n) : g.RulesAdvance source s where
  statement ctx := (serves.statement ctx fits).advances (fun _ _ made => made.1) stands
  expression ctx :=
    (runs_expression .trivial serves ctx (by omega)).advances (fun _ _ made => made.1) stands
  assignment ctx := (serves.assignment ctx (by omega)).advances (fun _ _ made => made.1) stands
  leftHand ctx := (serves.leftHand ctx (by omega)).advances (fun _ _ made => made.1) stands
  pattern ctx :=
    (runs_pattern .trivial serves ctx (by omega)).advances (fun _ _ made => made.1.1) stands
  key ctx inClass := (runs_key serves ctx inClass (by omega)).advances (fun _ _ made => made.1) stands
  member ctx := (runs_member .trivial serves ctx (by omega)).advances (fun _ _ made => made.1) stands
  method m := (runs_method .trivial serves m (by omega)).advances (fun _ _ made => made.1) stands
  classMember := (runs_classMember .trivial serves (by omega)).advances (fun _ _ made => made.1) stands
  staticBlock := (runs_staticBlock .trivial serves (by omega)).advances (fun _ _ made => made.1) stands

/-- An item that takes a character makes the turns of its list go on. -/
theorem Parser.Runs.itemsAdvance {α : Type} {item item' : Parser (α × Bool)}
    {Q : α × Bool → Cursor → Prop} (runs : Runs (.alone source) c item item' Q)
    (takes : ∀ x d, Q x d → d.rest.length < c.rest.length) (close : Punctuator) (read : List α)
    (stands : s.At source c) : TurnAdvances source s (itemsTurn close item read) := by
  have each : Runs (.alone source) c item item' fun _ d => d.rest.length < c.rest.length ∧ True :=
    runs.mono fun x d _ holds => ⟨takes x d holds, trivial⟩
  exact (runs_itemsTurn c (I := fun _ _ _ _ => True) each read).turnAdvances stands

theorem Grammar.Serves.turnsAdvance (serves : g.Serves (.alone source) (fun _ => True) g n)
    (stands : s.At source c) (fits : 8 * c.rest.length + 6 ≤ n) : g.TurnsAdvance source s where
  statements ctx stop body := (runs_statementsTurn serves ctx stop body fits).turnAdvances stands
  branches ctx read := (runs_branchesTurn .trivial serves ctx read (by omega)).turnAdvances stands
  branchBody ctx body := (runs_branchBodyTurn serves ctx body fits).turnAdvances stands
  declarators ctx read :=
    (runs_declaratorsTurn .trivial serves ctx read (by omega)).turnAdvances stands
  classMembers read := (runs_classMembersTurn .trivial serves read (by omega)).turnAdvances stands
  members ctx read :=
    ((runs_member .trivial serves ctx (by omega)).bind fun _ _ _ made =>
      runs_pure made.1).itemsAdvance (fun _ _ lt => lt) .braceClose read stands
  elements ctx read := (runs_arrayTurn serves ctx read (by omega)).turnAdvances stands
  arrayPattern ctx read :=
    (runs_arrayPatternTurn c (inside_of_serves serves ctx) read
      (by omega)).turnAdvances stands
  objectPattern ctx read :=
    (runs_objectPatternTurn c (inside_of_serves serves ctx) read
      (by omega)).turnAdvances stands
  arguments ctx read :=
    ((runs_argument serves ctx (by omega)).bind fun _ _ _ made =>
      runs_pure made.1).itemsAdvance (fun _ _ lt => lt) .parenClose read stands
  parameters ctx read :=
    (runs_parameter (inside_of_serves serves ctx) shrinks_whole (serves.assignment ctx)
      (by omega)).itemsAdvance (fun _ _ holds => holds.1) .parenClose read stands
  parenthesised ctx read :=
    (runs_parenItem .trivial serves ctx (by omega)).itemsAdvance (fun _ _ holds => holds.1) .parenClose
      read stands
  chain ctx calls start e :=
    (runs_chainTurn .trivial serves ctx calls start e (by omega)).turnAdvances stands
  binary ctx level left :=
    (runs_binaryTurn .trivial serves ctx level left (by omega)).turnAdvances stands
  expression ctx left := (runs_expressionTurn .trivial serves ctx left (by omega)).turnAdvances stands
  template ctx read := (runs_substitutionsTurn .trivial serves ctx read (by omega)).turnAdvances stands

end

/-- The parser gives a tree or an error of the text. From every state that stands at a position of the text,
and with any grammar that is deep enough for what is left of it, every rule and every turn of a loop goes
on. -/
theorem parse_progresses (source : String) :
    ((∃ script, parse source = .ok script) ∨ ∃ e, parse source = .error (.malformed e)) ∧
      ∀ s c depth, s.At source.toList c → 8 * (c.rest.length + 1) ≤ depth →
        (Grammar.ofDepth depth).RulesAdvance source.toList s ∧
          (Grammar.ofDepth depth).TurnsAdvance source.toList s := by
  refine ⟨?_, fun s c depth stands fits => ?_⟩
  · cases read : parse source with
    | ok script => exact .inl ⟨script, rfl⟩
    | error e =>
      cases e with
      | malformed e => exact .inr ⟨e, rfl⟩
      | exhausted => exact (parse_ne_exhausted source read).elim
  · have serves := Grammar.serves_ofDepth Law.trivial (.alone source.toList) depth depth depth
      (Nat.le_refl _) (Nat.le_refl _)
    exact ⟨serves.rulesAdvance stands (by omega), serves.turnsAdvance stands (by omega)⟩

theorem parse_progresses_start :
    (ParserState.ofSource "f(".toList).At "f(".toList (Cursor.ofSource "f(".toList) ∧
      (Grammar.ofDepth 24).RulesAdvance "f(".toList (ParserState.ofSource "f(".toList) ∧
      (Grammar.ofDepth 24).TurnsAdvance "f(".toList (ParserState.ofSource "f(".toList) :=
  ⟨ParserState.at_ofSource _, (parse_progresses "f(").2 _ _ 24 (ParserState.at_ofSource _) (by decide)⟩

end NameAudit
