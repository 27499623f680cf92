import NameAudit.Proofs.CoveredPatterns
import NameAudit.Proofs.CoverRules

/-!
The text of a pattern that declares names, read as an expression: it is one that covers the pattern. Each
way in which a piece of a pattern can be written (`Written`) is a way in which the rules for arrays,
objects and their members read on (`PatternPiece.Reread`).
-/
namespace NameAudit

open Scan (token)
open Grammar (ofDepth)

/-- What the grammar reads inside of a pattern, to any depth that is enough. -/
def PatternInside.read (text : List Char) : PatternInside where
  value c e d := d.rest.length < c.rest.length ∧
    ∀ n, 8 * c.rest.length + 5 ≤ n → Parser.Leads text c ((ofDepth n).assignment {}) e d
  key c k d := d.rest.length < c.rest.length ∧
    ∀ n, 8 * c.rest.length ≤ n → Parser.Leads text c (Parser.key (ofDepth n) {} false) k d
  pattern c p d :=
    ∀ n, 8 * c.rest.length + 1 ≤ n → Parser.Leads text c ((ofDepth n).pattern {}) p d

theorem shrinks_read {text : List Char} : (PatternInside.read text).Shrinks :=
  ⟨fun inside => inside.1, fun inside => inside.1⟩

/-- The first token of a pattern. -/
theorem Written.begins {V : PatternInside} {c d : Cursor} {p : Pattern}
    (written : Written V c (.whole p) d) :
    ∃ t e, token .operator c = .ok (t, e) ∧
      (t.kind = .identifier ∨ t.kind = .punct .bracketOpen ∨ t.kind = .punct .braceOpen) := by
  cases written with
  | ident read names => exact ⟨_, _, read, .inl names.1⟩
  | array opening opens => exact ⟨_, _, opening, .inr (.inl opens)⟩
  | object opening opens => exact ⟨_, _, opening, .inr (.inr opens)⟩


namespace Parser

/-- Read as expressions, the pieces of a pattern become what covers them. -/
def Reread (text : List Char) (c d : Cursor) : PatternPiece → Prop
  | .whole p => ∀ t e, token .operator d = .ok (t, e) → t.kind.EndsOperand →
    ∃ x : Expr, x.Covers p ∧
      ∀ n, 8 * c.rest.length + 1 ≤ n → Leads text c (primary (ofDepth n) {}) x d
  | .elements es => ∃ xs, List.Forall₂ Element.Covers xs es ∧
    ∀ n, 8 * c.rest.length + 5 ≤ n → ∀ read e, Leads text d (loop (arrayTurn (ofDepth n) {}) xs) read e →
      Leads text c (loop (arrayTurn (ofDepth n) {}) []) read e
  | .items es rest => ∀ t e, token .operator d = .ok (t, e) → t.kind = .punct .bracketClose →
    ∃ xs, (∀ binding, Element.toPatterns binding xs = .ok (es, rest)) ∧
      ∀ n, 8 * c.rest.length + 5 ≤ n → Leads text c (arrayItems (ofDepth n) {}) xs e
  | .property p => ∀ t e, token .operator d = .ok (t, e) →
    t.kind = .punct .comma ∨ t.kind = .punct .braceClose →
    ∃ m : Member, m.Covers p ∧ ∀ n, 8 * c.rest.length + 5 ≤ n → Leads text c (member (ofDepth n) {}) m d
  | .properties ps => ∃ ms, List.Forall₂ Member.Covers ms ps ∧
    ∀ n, 8 * c.rest.length + 5 ≤ n → ∀ read e,
      Leads text d (loop (itemsTurn .braceClose (listItem (member (ofDepth n) {}))) ms) read e →
        Leads text c (loop (itemsTurn .braceClose (listItem (member (ofDepth n) {}))) []) read e
  | .entries ps rest => ∀ t e, token .operator d = .ok (t, e) → t.kind = .punct .braceClose →
    ∃ ms, (∀ binding, Member.toPatterns binding ms = .ok (ps, rest)) ∧
      ∀ n, 8 * c.rest.length + 5 ≤ n → Leads text c (itemsOf .braceClose (member (ofDepth n) {})) ms e

section
variable {text : List Char} {c d e f : Cursor} {t u : Token} {p : Pattern} {default : Option Expr}

/-- A pattern with its default, where the item that it is ends. -/
theorem reread_defaulted (written : Written (.read text) c (.whole p) d)
    (again : Reread text c d (.whole p)) (value : DefaultWritten (.read text) d default e)
    (after : token .operator e = .ok (t, f)) (ends : t.kind.EndsItem) :
    ∃ x : Expr, x.CoversDefaulted p default ∧
      ∀ n, 8 * c.rest.length + 5 ≤ n → Leads text c ((ofDepth n).assignment {}) x e := by
  obtain ⟨u, h, first, begins⟩ := written.begins
  have begins : u.kind.BeginsOperand := by
    rcases begins with kind | kind | kind <;> simp [TokenKind.BeginsOperand, kind]
  cases value with
  | none =>
    obtain ⟨x, covers, alone⟩ := again t f after (.inr ends)
    refine ⟨x, .plain covers, fun n fits => ?_⟩
    obtain ⟨k, rfl⟩ : ∃ k, n = k + 4 := ⟨n - 4, by omega⟩
    exact leads_assignment first begins after ends (alone k (by omega))
  | @some _ _ _ right equals kind inside =>
    obtain ⟨x, covers, alone⟩ := again _ _ equals (.inl kind)
    obtain ⟨target, assigned, same⟩ := covers.target
    refine ⟨_, .assign (target.span.join right.span) same, fun n fits => ?_⟩
    obtain ⟨k, rfl⟩ : ∃ k, n = k + 4 := ⟨n - 4, by omega⟩
    have le := (written.length shrinks_read).1
    have lt := Scan.punct_length_lt equals kind
    exact leads_assignment_to first begins equals kind (alone k (by omega)) assigned
      (inside.2 (k + 3) (by omega))

/-- A pattern without a default, where the item that it is ends. -/
theorem reread_plain (written : Written (.read text) c (.whole p) d) (again : Reread text c d (.whole p))
    (after : token .operator d = .ok (t, e)) (ends : t.kind.EndsItem) :
    ∃ x : Expr, x.Covers p ∧
      ∀ n, 8 * c.rest.length + 5 ≤ n → Leads text c ((ofDepth n).assignment {}) x d := by
  have unequal : t.kind ≠ .punct .assign := by
    rcases ends with kind | kind | kind | kind | kind <;> rw [kind] <;> rintro ⟨⟩
  obtain ⟨x, covers, reads⟩ := reread_defaulted written again (.none after unequal) after ends
  cases covers with
  | plain covers => exact ⟨x, covers, reads⟩

/-! ### Names, arrays and objects -/

theorem leads_identifierRule {g : Grammar} {name : String} (names : t.Names name)
    (after : token .operator d = .ok (u, e)) (ends : u.kind.EndsOperand) :
    Leads text d (identifierRule g {} t) (.ident t.span name) d := by
  have alone : Leads text d (identifierOrArrow g t u) (.ident t.span name) d := by
    refine (leads_nameOf names d).bind ?_
    rw [if_neg]
    · exact leads_pure _ _
    · rcases ends with kind | kind | kind | kind | kind | kind <;> rw [kind] <;> decide
  refine (leads_look after).bind ?_
  split
  · rcases ends with kind | kind | kind | kind | kind | kind <;>
      · rw [kind]
        exact alone
  · exact alone

theorem reread_ident {name : String} (read : token .operator c = .ok (t, d)) (names : t.Names name) :
    Reread text c d (.whole (.ident t.span name)) := by
  intro u e after ends
  refine ⟨_, Expr.covers_ident _ _, fun n _ => ?_⟩
  refine (leads_take (Scan.token_expecting read (by rw [names.1]; rfl))).bind ?_
  rw [names.1]
  exact leads_identifierRule names after ends

theorem reread_array {es : List PatternElement} {rest : Option Pattern}
    (opening : token .operator c = .ok (t, d)) (opens : t.kind = .punct .bracketOpen)
    (again : Reread text d e (.items es rest)) (closing : token .operator e = .ok (u, f))
    (closes : u.kind = .punct .bracketClose) :
    Reread text c f
      (.whole (.destructuring (.array ⟨t.span.start, max f.offset t.span.start⟩ es rest))) := by
  intro _ _ _ _
  obtain ⟨xs, covers, reads⟩ := again u f closing closes
  have lt := Scan.punct_length_lt opening opens
  refine ⟨_, Expr.covers_array _ covers, fun n fits => ?_⟩
  refine (leads_take (Scan.token_expecting opening (by rw [opens]; rfl))).bind ?_
  rw [opens]
  exact (reads n (by omega)).bind ((leads_since _ _).bind (leads_pure _ _))

theorem reread_object {ps : List PatternProperty} {rest : Option Pattern}
    (opening : token .operator c = .ok (t, d)) (opens : t.kind = .punct .braceOpen)
    (again : Reread text d e (.entries ps rest)) (closing : token .operator e = .ok (u, f))
    (closes : u.kind = .punct .braceClose) :
    Reread text c f
      (.whole (.destructuring (.object ⟨t.span.start, max f.offset t.span.start⟩ ps rest))) := by
  intro _ _ _ _
  obtain ⟨ms, covers, reads⟩ := again u f closing closes
  have lt := Scan.punct_length_lt opening opens
  refine ⟨_, Expr.covers_object _ covers, fun n fits => ?_⟩
  refine (leads_take (Scan.token_expecting opening (by rw [opens]; rfl))).bind ?_
  rw [opens]
  exact (reads n (by omega)).bind ((leads_since _ _).bind (leads_pure _ _))

/-! ### Elements -/

section
variable {es : List PatternElement}

theorem reread_hole (again : Reread text c d (.elements es)) (comma : token .operator d = .ok (t, e))
    (separates : t.kind = .punct .comma) : Reread text c e (.elements (es ++ [.hole])) := by
  obtain ⟨xs, covers, onward⟩ := again
  have lt := Scan.punct_length_lt comma separates
  refine ⟨xs ++ [.hole], List.rel_append covers (.cons .hole .nil), fun n fits read f rest => ?_⟩
  exact onward n fits _ _ (leads_loop_again (leads_arrayTurn_hole comma separates) lt rest)

theorem reread_element {default : Option Expr} {h : Cursor}
    (written : Written (.read text) c (.elements es) d) (again : Reread text c d (.elements es))
    (target : Written (.read text) d (.whole p) e) (againTarget : Reread text d e (.whole p))
    (value : DefaultWritten (.read text) e default f) (comma : token .operator f = .ok (t, h))
    (separates : t.kind = .punct .comma) : Reread text c h (.elements (es ++ [.item p default])) := by
  obtain ⟨xs, covers, onward⟩ := again
  obtain ⟨x, same, reads⟩ := reread_defaulted target againTarget value comma (.comma separates)
  obtain ⟨u, j, first, begins⟩ := target.begins
  have le := (written.length shrinks_read).1
  have lt := (target.length shrinks_read).2 trivial
  have le' := value.length_le shrinks_read
  have lt' := Scan.punct_length_lt comma separates
  refine ⟨xs ++ [.item x], List.rel_append covers (.cons (.item same) .nil), fun n fits read f rest => ?_⟩
  refine onward n fits _ _ (leads_loop_again ?_ (by omega) rest)
  exact leads_arrayTurn_item first begins (reads n (by omega)) (leads_comma comma separates)

theorem reread_items (again : Reread text c d (.elements es)) : Reread text c d (.items es none) := by
  intro t e closing closes
  obtain ⟨xs, covers, onward⟩ := again
  refine ⟨xs, fun binding => ?_, fun n fits => ?_⟩
  · have none : Element.toPatterns binding [] = .ok ([], none) := rfl
    have read := Element.toPatterns_append covers none
    rwa [List.append_nil, List.append_nil] at read
  · exact onward n fits _ _ (leads_loop_done (leads_arrayTurn_close closing closes))

theorem reread_lastItem {default : Option Expr} (written : Written (.read text) c (.elements es) d)
    (again : Reread text c d (.elements es)) (target : Written (.read text) d (.whole p) e)
    (againTarget : Reread text d e (.whole p)) (value : DefaultWritten (.read text) e default f) :
    Reread text c f (.items (es ++ [.item p default]) none) := by
  intro t h closing closes
  obtain ⟨xs, covers, onward⟩ := again
  obtain ⟨x, same, reads⟩ :=
    reread_defaulted target againTarget value closing (.bracket closes)
  obtain ⟨u, j, first, begins⟩ := target.begins
  have le := (written.length shrinks_read).1
  refine ⟨xs ++ [.item x], fun binding => ?_, fun n fits => ?_⟩
  · exact Element.toPatterns_append covers (Element.Covers.toPatterns (.item same) rfl)
  · refine onward n fits _ _ (leads_loop_done ?_)
    exact leads_arrayTurn_item first begins (reads n (by omega))
      (leads_close (by rintro ⟨⟩) closing closes)

theorem reread_restItem (written : Written (.read text) c (.elements es) d)
    (again : Reread text c d (.elements es)) (dots : token .operator d = .ok (t, e))
    (spreads : t.kind = .punct .ellipsis) (target : Written (.read text) e (.whole p) f)
    (againTarget : Reread text e f (.whole p)) : Reread text c f (.items es (some p)) := by
  intro u h closing closes
  obtain ⟨xs, covers, onward⟩ := again
  obtain ⟨x, same, reads⟩ := reread_plain target againTarget closing (.bracket closes)
  have le := (written.length shrinks_read).1
  have lt := Scan.punct_length_lt dots spreads
  refine ⟨xs ++ [.spread x], fun binding => ?_, fun n fits => ?_⟩
  · have last : Element.toPatterns binding [.spread x] = .ok ([], some p) := by
      rw [Element.toPatterns, same.pattern binding]
      rfl
    have read := Element.toPatterns_append covers last
    rwa [List.append_nil] at read
  · refine onward n fits _ _ (leads_loop_done ?_)
    exact leads_arrayTurn_rest dots spreads (reads n (by omega)) closing closes

end

/-! ### Properties -/

theorem reread_shorthand {name : String} (read : token .operator c = .ok (t, d)) (names : t.Names name)
    (value : DefaultWritten (.read text) d default e) :
    Reread text c e (.property (.mk ⟨t.span.start, max e.offset t.span.start⟩ (.direct name)
      (.ident t.span name) default)) := by
  intro u h after ends
  have starts := startsKey_of_identifier names.1 false
  cases value with
  | none =>
    refine ⟨_, .shorthand ⟨t.span.start, max d.offset t.span.start⟩ name t.span, fun n _ => ?_⟩
    have alone : KeyAlone c t d := by
      refine ⟨read, starts, fun _ => ?_⟩
      rcases ends with kind | kind
      · exact ⟨u, h, _, after, kind, by rintro ⟨⟩, by rintro ⟨⟩⟩
      · exact ⟨u, h, _, after, kind, by rintro ⟨⟩, by rintro ⟨⟩⟩
    exact leads_member alone (leads_identifierKey read names)
      (leads_memberRest_shorthand _ names after ends)
  | @some _ _ _ right equals kind inside =>
    have same := (Expr.covers_ident t.span name).pattern
    refine ⟨_, .property ⟨t.span.start, max e.offset t.span.start⟩ (.direct name)
      (.assign (t.span.join right.span) same), fun n fits => ?_⟩
    have alone : KeyAlone c t d :=
      ⟨read, starts, fun _ => ⟨_, _, _, equals, kind, by rintro ⟨⟩, by rintro ⟨⟩⟩⟩
    have lt := Scan.identifier_length_lt read names.1
    have lt' := Scan.punct_length_lt equals kind
    exact leads_member alone (leads_identifierKey read names)
      (leads_memberRest_default _ names equals kind (inside.2 n (by omega)))

/-- A property whose target follows a colon. -/
theorem reread_property {k : Key} {c' d' f' : Cursor} {v : Token}
    (alone : ∀ s : ParserState, s.At text c → KeyAlone c t c')
    (keyed : ∀ n, 8 * c.rest.length ≤ n → Leads text c (key (ofDepth n) {} false) k d)
    (lt : d.rest.length < c.rest.length) (colon : token .operator d = .ok (u, e))
    (splits : u.kind = .punct .colon) (target : Written (.read text) e (.whole p) f)
    (againTarget : Reread text e f (.whole p)) (value : DefaultWritten (.read text) f default d')
    (after : token .operator d' = .ok (v, f')) (ends : v.kind.EndsItem) :
    ∃ m : Member, m.Covers (.mk ⟨t.span.start, max d'.offset t.span.start⟩ k p default) ∧
      ∀ n, 8 * c.rest.length + 5 ≤ n → Leads text c (member (ofDepth n) {}) m d' := by
  obtain ⟨x, same, reads⟩ := reread_defaulted target againTarget value after ends
  have lt' := Scan.punct_length_lt colon splits
  refine ⟨_, .property _ k same, fun n fits => leads_of_state fun s stands => ?_⟩
  exact leads_member (alone s stands) (keyed n (by omega))
    (leads_memberRest_value _ colon splits (reads n (by omega)))

/-- The first token of a property. -/
theorem startsKey_of_property {property : PatternProperty} {s : ParserState} (stands : s.At text c)
    (written : Written (.read text) c (.property property) d) :
    ∃ t e, token .operator c = .ok (t, e) ∧ startsKey t false = true := by
  cases written with
  | shorthand read names => exact ⟨_, _, read, startsKey_of_identifier names.1 false⟩
  | named read names => exact ⟨_, _, read, startsKey_of_identifier names.1 false⟩
  | keyed read unnamed key =>
    exact ⟨_, _, read, startsKey_of_key stands read (key.2 _ (Nat.le_refl _))⟩

/-! ### Members -/

section
variable {ps : List PatternProperty} {property : PatternProperty}

theorem listItem_leads {g : Grammar} {m : Member} (reads : Leads text c (member g {}) m d) :
    Leads text c (listItem (member g {})) (m, false) d :=
  reads.bind (leads_pure _ _)

theorem leads_members {g : Grammar} {read : Items Member}
    (reads : Leads text c (loop (itemsTurn .braceClose (listItem (member g {}))) []) read d) :
    Leads text c (itemsOf .braceClose (member g {})) read.items d :=
  reads.bind (leads_pure _ _)

/-- A turn for a property, which the closing brace is not. -/
theorem leads_propertyTurn {m : Member} {ms : List Member} {n : Nat}
    {answer : Turn (List Member) (Items Member)} (written : Written (.read text) c (.property property) d)
    (reads : Leads text c (member (ofDepth n) {}) m d)
    (rest : Leads text d (afterItem .braceClose (.again (ms ++ [m])) (.done ⟨ms ++ [m], false⟩)) answer e) :
    Leads text c (itemsTurn .braceClose (listItem (member (ofDepth n) {})) ms) answer e := by
  refine leads_of_state fun s stands => ?_
  obtain ⟨t, f, first, starts⟩ := startsKey_of_property stands written
  have other : t.kind ≠ .punct .braceClose := ne_punct_of_startsKey starts (by rintro ⟨⟩)
  exact (leads_leave first other).bind ((listItem_leads reads).bind rest)

theorem reread_separated (written : Written (.read text) c (.properties ps) d)
    (again : Reread text c d (.properties ps)) (one : Written (.read text) d (.property property) e)
    (againOne : Reread text d e (.property property)) (comma : token .operator e = .ok (t, f))
    (separates : t.kind = .punct .comma) : Reread text c f (.properties (ps ++ [property])) := by
  obtain ⟨ms, covers, onward⟩ := again
  obtain ⟨m, same, reads⟩ := againOne t f comma (.inl separates)
  have le := (written.length shrinks_read).1
  have lt := (one.length shrinks_read).2 trivial
  have lt' := Scan.punct_length_lt comma separates
  refine ⟨ms ++ [m], List.rel_append covers (.cons same .nil), fun n fits read h rest => ?_⟩
  refine onward n fits _ _ (leads_loop_again ?_ (by omega) rest)
  exact leads_propertyTurn one (reads n (by omega)) (leads_comma comma separates)

theorem reread_entries (again : Reread text c d (.properties ps)) :
    Reread text c d (.entries ps none) := by
  intro t e closing closes
  obtain ⟨ms, covers, onward⟩ := again
  refine ⟨ms, fun binding => ?_, fun n fits => ?_⟩
  · have none : Member.toPatterns binding [] = .ok ([], none) := rfl
    have read := Member.toPatterns_append covers none
    rwa [List.append_nil, List.append_nil] at read
  · refine leads_members (onward n fits ⟨ms, !ms.isEmpty⟩ _ (leads_loop_done ?_))
    exact (leads_eat closing closes).bind (leads_pure _ _)

theorem reread_lastEntry (written : Written (.read text) c (.properties ps) d)
    (again : Reread text c d (.properties ps)) (one : Written (.read text) d (.property property) e)
    (againOne : Reread text d e (.property property)) :
    Reread text c e (.entries (ps ++ [property]) none) := by
  intro t f closing closes
  obtain ⟨ms, covers, onward⟩ := again
  obtain ⟨m, same, reads⟩ := againOne t f closing (.inr closes)
  have le := (written.length shrinks_read).1
  refine ⟨ms ++ [m], fun binding => ?_, fun n fits => ?_⟩
  · exact Member.toPatterns_append covers (same.toPatterns rfl)
  · refine leads_members (onward n fits ⟨ms ++ [m], false⟩ _ (leads_loop_done ?_))
    exact leads_propertyTurn one (reads n (by omega)) (leads_close (by rintro ⟨⟩) closing closes)

theorem reread_restEntry (written : Written (.read text) c (.properties ps) d)
    (again : Reread text c d (.properties ps)) (dots : token .operator d = .ok (t, e))
    (spreads : t.kind = .punct .ellipsis) (target : Written (.read text) e (.whole p) f)
    (againTarget : Reread text e f (.whole p)) : Reread text c f (.entries ps (some p)) := by
  intro u h closing closes
  obtain ⟨ms, covers, onward⟩ := again
  obtain ⟨x, same, reads⟩ := reread_plain target againTarget closing (.brace closes)
  have le := (written.length shrinks_read).1
  have lt := Scan.punct_length_lt dots spreads
  have unclosed : t.kind ≠ .punct .braceClose := by
    rw [spreads]
    rintro ⟨⟩
  let span : Span := ⟨t.span.start, max f.offset t.span.start⟩
  refine ⟨ms ++ [.spread span x], fun binding => ?_, fun n fits => ?_⟩
  · have last : Member.toPatterns binding [.spread span x] = .ok ([], some p) := by
      rw [Member.toPatterns, same.pattern binding]
      rfl
    have read := Member.toPatterns_append covers last
    rwa [List.append_nil] at read
  · refine leads_members (onward n fits ⟨_, false⟩ _ (leads_loop_done ?_))
    refine (leads_leave dots unclosed).bind ?_
    refine (listItem_leads (leads_spread dots spreads (reads n (by omega)))).bind ?_
    exact leads_close (by rintro ⟨⟩) closing closes

end

/-- Wherever a pattern is written, the text can be read as what covers it. -/
theorem reread {piece : PatternPiece} (written : Written (.read text) c piece d) :
    Reread text c d piece := by
  induction written with
  | ident read names => exact reread_ident read names
  | array opening opens _ closing closes again => exact reread_array opening opens again closing closes
  | object opening opens _ closing closes again => exact reread_object opening opens again closing closes
  | noElements => exact ⟨[], .nil, fun _ _ _ _ onward => onward⟩
  | hole _ comma separates again => exact reread_hole again comma separates
  | element before target value comma separates again againTarget =>
    exact reread_element before again target againTarget value comma separates
  | items _ again => exact reread_items again
  | lastItem before target value again againTarget =>
    exact reread_lastItem before again target againTarget value
  | restItem before dots spreads target again againTarget =>
    exact reread_restItem before again dots spreads target againTarget
  | shorthand read names value => exact reread_shorthand read names value
  | named read names colon splits target value againTarget =>
    intro v f' after ends
    have alone : KeyAlone _ _ _ := ⟨read, startsKey_of_identifier names.1 false,
      fun _ => ⟨_, _, _, colon, splits, by rintro ⟨⟩, by rintro ⟨⟩⟩⟩
    exact reread_property (fun _ _ => alone) (fun _ _ => leads_identifierKey read names)
      (Scan.identifier_length_lt read names.1) colon splits target againTarget value after
      (ends.elim .comma .brace)
  | keyed read unnamed key colon splits target value againTarget =>
    intro v f' after ends
    exact reread_property
      (fun s stands => ⟨read, startsKey_of_key stands read (key.2 _ (Nat.le_refl _)),
        fun name => absurd name unnamed⟩)
      key.2 key.1 colon splits target againTarget value after
      (ends.elim .comma .brace)
  | noProperties => exact ⟨[], .nil, fun _ _ _ _ onward => onward⟩
  | separated before property comma separates again againProperty =>
    exact reread_separated before again property againProperty comma separates
  | entries _ again => exact reread_entries again
  | lastEntry before property again againProperty =>
    exact reread_lastEntry before again property againProperty
  | restEntry before dots spreads target again againTarget =>
    exact reread_restEntry before again dots spreads target againTarget

end
end Parser
end NameAudit
