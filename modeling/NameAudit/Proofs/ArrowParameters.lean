import Mathlib
import NameAudit.Proofs.CoverTexts
import NameAudit.Proofs.StatementRules

/-!
Parameters in parentheses, read as a list of a function, are those of the arrow function that the same
parentheses begin (`assignment_of_parameters`). The text of the list is a text of patterns (`Written`)
also where an arrow follows, because it is read before the last parenthesis; and such a text is read as
expressions that cover the patterns.
-/
namespace NameAudit

open Cursor (extend)
open Relation (ReflTransGen)
open Scan (token)
open Grammar (ofDepth)
open Text (byteLength)

theorem Cursor.extend_nil (c : Cursor) : c.extend [] = c := by
  simp [extend]

namespace Parser

section
variable {α : Type} {w : Continued} {text : List Char} {c d : Cursor} {p p' q : Parser α}
  {Q Q' : α → Cursor → Prop}

/-! ### What many parsers read alike -/

theorem longer_alone (text : List Char) : (Continued.alone text).longer = text :=
  List.append_nil text

/-- A parser for the longer text alone. -/
theorem at_alone {s : ParserState} (stands : s.At text c) :
    s.At (Continued.alone text).longer (c.extend (Continued.alone text).more) := by
  rw [longer_alone]
  exact (Cursor.extend_nil c).symm ▸ stands

/-- Where one parser succeeds, all those that it runs with read the same. -/
theorem Runs.leads {others : Nat → Parser α} (m : Nat) (runs : Runs (.alone text) c p p' Q)
    (alike : ∀ n, m ≤ n → Runs (.alone text) c p (others n) Q) :
    Runs (.alone text) c p p' fun a d => Q a d ∧ ∀ n, m ≤ n → Leads text c (others n) a d := by
  intro s s' stands stands'
  have before := runs s s' stands stands'
  cases call : p s with
  | error e =>
    rw [call] at before
    exact before
  | ok answer =>
    obtain ⟨a, t⟩ := answer
    rw [call] at before
    obtain ⟨d, there, way, holds, follow⟩ := before
    refine ⟨d, there, way, ⟨holds, fun n le u standing => ?_⟩, follow⟩
    have again := alike n le s u stands (at_alone standing)
    rw [call] at again
    obtain ⟨d', there', -, -, follow'⟩ := again
    obtain rfl : d' = d := there'.position.symm.trans there.position
    obtain ⟨t', done, standing'⟩ := follow' (.inl rfl)
    rw [longer_alone] at standing'
    exact ⟨t', done, Cursor.extend_nil d' ▸ standing'⟩

/-- What holds of the answer on the longer text, if the last parenthesis is still to come. -/
theorem Runs.onward (runs : Runs w c p p' Q)
    (next : Runs (.alone w.longer) (c.extend w.more) p' q Q') :
    Runs w c p p' fun a d => Q a d ∧ ReflTransGen Scan.Takes c d ∧
      (w.Awaits d → Q' a (d.extend w.more)) := by
  intro s s' stands stands'
  have before := runs s s' stands stands'
  cases call : p s with
  | error e =>
    rw [call] at before
    exact before
  | ok answer =>
    obtain ⟨a, t⟩ := answer
    rw [call] at before
    obtain ⟨d, there, way, holds, follow⟩ := before
    refine ⟨d, there, way, ⟨holds, way, fun awaits => ?_⟩, follow⟩
    obtain ⟨t', done, there'⟩ := follow awaits
    have onward := next s' s' stands' (at_alone stands')
    rw [done] at onward
    obtain ⟨e, there'', -, holds', -⟩ := onward
    obtain rfl : e = d.extend w.more := there''.position.symm.trans there'.position
    exact holds'

end

/-! ### What is written -/

/-- Patterns are written as they are read, to any depth that is enough. -/
theorem inside_read (text : List Char) (n depth depth' : Nat) (le : n ≤ depth) (le' : n ≤ depth') :
    Inside (.alone text) (.read text) (ofDepth depth) (ofDepth depth') {} n := by
  induction n using Nat.strong_induction_on generalizing depth depth' with
  | _ n ih =>
    have serves (m : Nat) (k k' : Nat) (le : m ≤ k) (le' : m ≤ k') :=
      Grammar.serves_ofDepth Law.trivial (.alone text) m k k' le le'
    refine ⟨fun {c} fits => ?_, fun {c} fits => ?_, fun {c} fits => ?_⟩
    · refine (Runs.leads (8 * c.rest.length + 5) ((serves n depth depth' le le').assignment _ fits)
        fun m more => (serves _ depth m (by omega) more).assignment _ (Nat.le_refl _)).mono ?_
      exact fun e d _ holds => ⟨holds.1.1, holds.2⟩
    · refine (Runs.leads (8 * c.rest.length) (runs_key (serves n depth depth' le le') _ _ fits)
        fun m more => runs_key (serves _ depth m (by omega) more) _ _ (Nat.le_refl _)).mono ?_
      exact fun k d _ holds => ⟨holds.1.1, holds.2⟩
    · obtain ⟨depth, rfl⟩ : ∃ k, depth = k + 1 := ⟨depth - 1, by omega⟩
      have written (m : Nat) (more : 8 * c.rest.length + 1 ≤ m) :
          Runs (.alone text) c ((ofDepth (depth + 1)).pattern {}) ((ofDepth m).pattern {})
            fun p => Written (.read text) c (.whole p) := by
        obtain ⟨m, rfl⟩ : ∃ k, m = k + 1 := ⟨m - 1, by omega⟩
        exact runs_patternRule (ih (8 * c.rest.length) (by omega) depth m (by omega) (by omega))
          (Nat.le_refl _)
      exact Runs.leads (8 * c.rest.length + 1) (written depth' (by omega)) written

end Parser

/-! ### The same list in a longer text -/

section
variable {α : Type} {w : Continued} {close : Punctuator} {c d : Cursor}
  {I J : Cursor → α → Bool → Cursor → Prop}

/-- Items are taken token by token, and are items of the longer text as well if the last parenthesis is
still to come. -/
def Onward (w : Continued) (J : Cursor → α → Bool → Cursor → Prop) (c : Cursor) (x : α) (isLast : Bool)
    (d : Cursor) : Prop :=
  ReflTransGen Scan.Takes c d ∧ (w.Awaits d → J (c.extend w.more) x isLast (d.extend w.more))

theorem ItemsBefore.way {xs : List α} (before : ItemsBefore close (Onward w J) c xs d) :
    ReflTransGen Scan.Takes c d := by
  induction before with
  | none => exact .refl
  | next _ _ _ item comma _ ih => exact (ih.trans item.1).tail (.token _ _ comma)

theorem ItemsBefore.longer {xs : List α} (before : ItemsBefore close (Onward w J) c xs d)
    (reached : (Cursor.ofSource w.source).Reaches c) (awaits : w.Awaits d) :
    ItemsBefore close J (c.extend w.more) xs (d.extend w.more) := by
  induction before with
  | none => exact .none
  | @next d e _ _ _ _ _ _ before ahead more item comma separates ih =>
    have awaits' : w.Awaits e := awaits.before (.single (.token _ _ comma))
    have awaits'' : w.Awaits d := awaits'.before item.1
    have there : (Cursor.ofSource w.source).Reaches d :=
      reached.trans (Scan.reaches_of_takes before.way)
    have there' : (Cursor.ofSource w.source).Reaches e :=
      there.trans (Scan.reaches_of_takes item.1)
    exact .next (ih awaits'') (Continued.token_longer awaits'' there ahead) more (item.2 awaits')
      (Continued.token_longer awaits' there' comma) separates

theorem awaits_last {t : Token} (closing : token .operator c = .ok (t, d))
    (closes : t.kind = .punct .parenClose) (ended : d.rest = []) : w.Awaits c :=
  .inr ⟨c, d, .operator, t, .refl, closing, closes, ended⟩

theorem ItemsWritten.awaits {read : Parser.Items α}
    (written : ItemsWritten .parenClose (Onward w J) c read d) (ended : d.rest = []) : w.Awaits c := by
  cases written with
  | closed before closing closes => exact (awaits_last closing closes ended).before before.way
  | last before _ _ item closing closes =>
    exact ((awaits_last closing closes ended).before item.1).before before.way

/-- A list up to the last parenthesis of a text is one of the longer text. -/
theorem ItemsWritten.longer {read : Parser.Items α}
    (written : ItemsWritten .parenClose (Onward w J) c read d)
    (reached : (Cursor.ofSource w.source).Reaches c) (ended : d.rest = []) :
    ItemsWritten .parenClose J (c.extend w.more) read (d.extend w.more) := by
  cases written with
  | closed before closing closes =>
    have here : w.Awaits _ := awaits_last closing closes ended
    have there := reached.trans (Scan.reaches_of_takes before.way)
    exact .closed (before.longer reached here) (Continued.token_longer here there closing) closes
  | last before ahead more item closing closes =>
    have here : w.Awaits _ := awaits_last closing closes ended
    have here' := here.before item.1
    have there := reached.trans (Scan.reaches_of_takes before.way)
    have there' := there.trans (Scan.reaches_of_takes item.1)
    exact .last (before.longer reached here') (Continued.token_longer here' there ahead) more
      (item.2 here) (Continued.token_longer here there' closing) closes

end

namespace Parser

/-- Parameters up to the last parenthesis of a text are written in the longer text. -/
theorem parameters_longer {w : Continued} {params : List Param} {s : ParserState}
    (read : parameters (Grammar.forSource w.source) {} (.ofSource w.source) = .ok (params, s))
    (whole : s.prevEnd = byteLength w.source) :
    ∃ t c trailing, token .operator (Cursor.ofSource w.longer) = .ok (t, c) ∧
      t.kind = .punct .parenOpen ∧
      ItemsWritten .parenClose (ParamWritten (.read w.longer)) c ⟨params, trailing⟩
        ⟨byteLength w.source, w.more⟩ := by
  let n := 8 * (w.source.length + 1)
  let m := 8 * (w.longer.length + 1)
  have more : w.longer.length = w.source.length + w.more.length := List.length_append
  have serves := Grammar.serves_ofDepth Law.trivial w n n m (Nat.le_refl n) (by omega)
  have runs : Runs w (Cursor.ofSource w.source) (parameters (Grammar.forSource w.source) {})
      (parameters (Grammar.forSource w.longer) {}) fun params d =>
      ∃ t c trailing, token .operator (Cursor.ofSource w.source) = .ok (t, c) ∧
        t.kind = .punct .parenOpen ∧
        ItemsWritten .parenClose (Onward w (ParamWritten (.read w.longer))) c ⟨params, trailing⟩ d := by
    refine runs_parametersOf fun d lt => ?_
    have lt : d.rest.length < w.source.length := lt
    have fits : 8 * (d.extend w.more).rest.length + 1 ≤ m := by
      rw [Cursor.extend_rest, List.length_append]
      omega
    have inside := inside_read w.longer m m m (Nat.le_refl m) (Nat.le_refl m)
    refine (Runs.onward (runs_parameter (inside_of_serves serves {}) shrinks_whole (serves.assignment {}) (by omega))
      (runs_parameter inside shrinks_read inside.value fits)).mono ?_
    rintro x e - ⟨⟨shorter, -⟩, way, onward⟩
    exact ⟨shorter, way, fun awaits => (onward awaits).2⟩
  obtain ⟨s', stands'⟩ := exists_at w (Cursor.Reaches.refl (Cursor.ofSource w.source))
  have ran := runs _ s' (ParserState.at_ofSource w.source) stands'
  rw [read] at ran
  obtain ⟨d, there, -, ⟨t, c, trailing, opening, opens, written⟩, -⟩ := ran
  have stop : d.offset = byteLength w.source := there.prevEnd.symm.trans whole
  have ended := Cursor.rest_of_offset there.reached stop
  have stop' : d.extend w.more = ⟨byteLength w.source, w.more⟩ := by
    rw [extend, stop, ended, List.nil_append]
  have reached := Scan.token_reaches opening
  have written' := written.longer reached ended
  rw [stop'] at written'
  have awaits := (written.awaits ended).before (.single (.token _ _ opening))
  exact ⟨t, c.extend w.more, trailing,
    Continued.token_longer awaits (Cursor.Reaches.refl _) opening, opens, written'⟩

/-! ### The arrow function -/

section
variable {text : List Char} {c d e f : Cursor} {t u : Token} {params : List Param} {x : Expr}
  {trailing : Bool} {n start : Nat}

theorem rereads_params (fits : 8 * c.rest.length + 5 ≤ n) :
    Rereads text .parenClose (ParamWritten (.read text)) ParenItem.Covers (parenItem (ofDepth n) {}) c where
  shrinks _ _ _ _ := ParamWritten.length_lt shrinks_read
  each := by
    intro d x isLast e t f le written after ends
    have ends : t.kind.EndsItem := ends.elim .comma .paren
    cases written with
    | listed target value =>
      obtain ⟨y, covers, reads⟩ := reread_defaulted target (reread target) value after ends
      obtain ⟨u, h, first, begins⟩ := target.begins
      have other : u.kind ≠ .punct .ellipsis := by
        rcases begins with kind | kind | kind <;> rw [kind] <;> rintro ⟨⟩
      refine ⟨.expr y, .expr covers, (leads_leave first other).bind ?_⟩
      exact (reads n (by omega)).bind (leads_pure _ _)
    | rest dots spreads target inside =>
      have lt := Scan.punct_length_lt dots spreads
      refine ⟨.rest _, .rest _, (leads_eat dots spreads).bind ?_⟩
      exact (inside n (by omega)).bind (leads_pure _ _)

/-- Only the last parameter takes the remaining arguments. -/
theorem isRest_of_written {V : PatternInside}
    (written : ItemsWritten .parenClose (ParamWritten V) c ⟨params, trailing⟩ d) :
    ∀ p ∈ params.dropLast, p.isRest = false := by
  obtain ⟨init, last, same, before, final⟩ := written.split
  dsimp only at same
  intro p member
  have inside : p ∈ init := by
    rcases final with rfl | ⟨q, _, _, _, rfl, -⟩
    · rw [same, List.append_nil] at member
      exact List.dropLast_subset _ member
    · rwa [same, List.dropLast_concat] at member
  obtain ⟨_, _, item⟩ := before p inside
  exact item.isRest_eq

/-- Parameters before an arrow are read as expressions, and then again as themselves. -/
theorem leads_parenOrArrow (fits : 8 * c.rest.length + 5 ≤ n)
    (written : ItemsWritten .parenClose (ParamWritten (.read text)) c ⟨params, trailing⟩ d)
    (arrow : token .operator d = .ok (t, e)) (kind : t.kind = .punct .arrow)
    (rest : Leads text d (arrowRest (ofDepth n) start params false) x f) :
    Leads text c (parenOrArrow (ofDepth n) {} start) x f := by
  obtain ⟨items, covers, reads⟩ := ItemsWritten.leads (rereads_params fits) (by rintro ⟨⟩) written
  obtain ⟨listed, read, same⟩ := ParenItem.Covers.toParams covers (isRest_of_written written)
  refine Leads.bind reads ((leads_look arrow).bind ?_)
  rw [if_pos (beq_iff_eq.mpr kind)]
  refine (leads_ofExcept read d).bind ?_
  rwa [same]

theorem leads_parenthesis (opening : token .operator c = .ok (t, d)) (opens : t.kind = .punct .parenOpen)
    (begins : t.span.start = start) (inside : Leads text d (parenOrArrow (ofDepth n) {} start) x e) :
    Leads text c (primary (ofDepth n) {}) x e := by
  refine (leads_take (Scan.token_expecting opening (by rw [opens]; rfl))).bind ?_
  rw [opens, begins]
  exact inside

/-! ### A body -/

/-- An arrow and a number. -/
def arrowZero : List Char := " => 0".toList

theorem token_arrow (n : Nat) : ∃ t, token .operator ⟨n, arrowZero⟩ = .ok (t, ⟨n + 3, " 0".toList⟩) ∧
    t.kind = .punct .arrow ∧ t.afterNewline = false :=
  ⟨_, Scan.token_eq_ok_iff.mpr ⟨{}, ⟨n + 1, "=> 0".toList⟩, .punct .arrow, by cbv, rfl, rfl⟩, rfl, rfl⟩

theorem token_zero (n : Nat) : ∃ t, token .operator ⟨n, " 0".toList⟩ = .ok (t, ⟨n + 2, []⟩) ∧
    t.kind = .number ∧ t.span = ⟨n + 1, n + 2⟩ ∧ t.text = "0" := by
  have passes : Cursor.Passes ⟨n + 1, ['0']⟩ ['0'] ⟨n + 2, []⟩ := ⟨rfl, rfl⟩
  refine ⟨_, Scan.token_eq_ok_iff.mpr ⟨{}, ⟨n + 1, ['0']⟩, .number, by cbv, rfl, rfl⟩, rfl, rfl, ?_⟩
  exact congrArg String.ofList (Cursor.upTo_of_passes passes)

theorem leads_zero (stop k : Nat) :
    Leads text ⟨stop, " 0".toList⟩ ((ofDepth (k + 4)).assignment {})
      (.literal ⟨stop + 1, stop + 2⟩ (.number "0")) ⟨stop + 2, []⟩ := by
  obtain ⟨t, read, kind, span, spelling⟩ := token_zero stop
  obtain ⟨u, after, ended⟩ := token_end (stop + 2)
  refine leads_assignment read (.inr (.inl kind)) after (.inl ended) ?_
  refine (leads_take (Scan.token_expecting read (by rw [kind]; rfl))).bind ?_
  rw [kind, span, spelling]
  exact leads_pure _ _

theorem leads_arrowZero (stop k : Nat) :
    Leads text ⟨stop, arrowZero⟩ (arrowRest (ofDepth (k + 4)) 0 params false)
      (.func ⟨0, stop + 5⟩ none (.mk ⟨0, stop + 5⟩ true false false params
        (.expr (.literal ⟨stop + 4, stop + 5⟩ (.number "0"))))) ⟨stop + 5, []⟩ := by
  obtain ⟨t, read, kind, near⟩ := token_arrow stop
  obtain ⟨u, next, number, -⟩ := token_zero (stop + 3)
  refine (leads_require read kind).bind ?_
  rw [near]
  refine (leads_look next).bind ?_
  rw [number]
  exact (leads_zero (stop + 3) k).bind ((leads_pure _ _).bind ((leads_since 0 _).bind (leads_pure _ _)))

theorem start_of_parenthesis {cs : List Char} (opening : token .operator ⟨0, '(' :: cs⟩ = .ok (t, c)) :
    t.span.start = 0 := by
  obtain ⟨seen, begin, kind, gap, -, rfl⟩ := Scan.token_eq_ok_iff.mp opening
  have none : Scan.trivia {} ⟨0, '(' :: cs⟩ = .ok ({}, ⟨0, '(' :: cs⟩) := by cbv
  obtain ⟨-, rfl⟩ : {} = seen ∧ ⟨0, '(' :: cs⟩ = begin := by simpa using none.symm.trans gap
  rfl

/-- Parameters in parentheses that take the whole text are, with their patterns, keys, defaults and spans,
those of the arrow function that is read when an arrow and a number follow. -/
theorem assignment_of_parameters {inner : List Char} {params : List Param} {s : ParserState}
    (read : parameters (Grammar.forSource ('(' :: inner ++ [')'])) {}
      (.ofSource ('(' :: inner ++ [')'])) = .ok (params, s))
    (whole : s.prevEnd = byteLength ('(' :: inner ++ [')'])) :
    ∃ t, (Grammar.forSource ('(' :: inner ++ [')'] ++ " => 0".toList)).assignment {}
        (.ofSource ('(' :: inner ++ [')'] ++ " => 0".toList)) =
      .ok (.func ⟨0, s.prevEnd + 5⟩ none (.mk ⟨0, s.prevEnd + 5⟩ true false false params
        (.expr (.literal ⟨s.prevEnd + 4, s.prevEnd + 5⟩ (.number "0")))), t) ∧
      t.prevEnd = s.prevEnd + 5 := by
  let w : Continued := ⟨'(' :: inner ++ [')'], arrowZero, .inr ⟨'(' :: inner, rfl⟩⟩
  obtain ⟨t, c, trailing, opening, opens, written⟩ := parameters_longer (w := w) read whole
  have written : ItemsWritten .parenClose (ParamWritten (.read w.longer)) c ⟨params, trailing⟩
      ⟨s.prevEnd, arrowZero⟩ := whole ▸ written
  obtain ⟨arrow, next, kind, -⟩ := token_arrow s.prevEnd
  obtain ⟨u, after, ended⟩ := token_end (s.prevEnd + 5)
  have lt : c.rest.length < w.longer.length := Scan.punct_length_lt opening opens
  -- Four of the levels of depth lie between the assignment and the parenthesis that begins it.
  let k := 8 * w.longer.length
  have inside := leads_parenOrArrow (n := k + 4) (by omega) written next kind (leads_arrowZero s.prevEnd k)
  have alone := leads_parenthesis opening opens (start_of_parenthesis opening) inside
  obtain ⟨t', done, there⟩ := leads_assignment opening (.inr (.inr (.inl opens))) after (.inl ended) alone
    (.ofSource w.longer) (ParserState.at_ofSource _)
  exact ⟨t', done, there.prevEnd⟩

theorem assignment_of_parameters_array :
    ∃ (inner : List Char) (params : List Param) (s t : ParserState), params.length = 2 ∧
      parameters (Grammar.forSource ('(' :: inner ++ [')'])) {} (.ofSource ('(' :: inner ++ [')'])) =
        .ok (params, s) ∧
      s.prevEnd = byteLength ('(' :: inner ++ [')']) ∧
      (Grammar.forSource ('(' :: inner ++ [')'] ++ " => 0".toList)).assignment {}
          (.ofSource ('(' :: inner ++ [')'] ++ " => 0".toList)) =
        .ok (.func ⟨0, s.prevEnd + 5⟩ none (.mk ⟨0, s.prevEnd + 5⟩ true false false params
          (.expr (.literal ⟨s.prevEnd + 4, s.prevEnd + 5⟩ (.number "0")))), t) := by
  let inner : List Char := ['[', 'a', '=', '1', ']', ',', '.', '.', '.', 'b']
  let params : List Param := [
    .mk ⟨1, 6⟩ false (.destructuring (.array ⟨1, 6⟩
      [.item (.ident ⟨2, 3⟩ "a") (some (.literal ⟨4, 5⟩ (.number "1")))] none)) none,
    .mk ⟨10, 11⟩ true (.ident ⟨10, 11⟩ "b") none]
  let s : ParserState := ⟨'(' :: inner ++ [')'], ⟨12, []⟩, none, 12⟩
  have read : parameters (Grammar.forSource ('(' :: inner ++ [')'])) {}
      (.ofSource ('(' :: inner ++ [')'])) = .ok (params, s) := by
    cbv
  obtain ⟨t, done, -⟩ := assignment_of_parameters read rfl
  exact ⟨inner, params, s, t, rfl, read, rfl, done⟩

end
end Parser
end NameAudit
