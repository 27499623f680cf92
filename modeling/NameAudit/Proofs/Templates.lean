import NameAudit.Proofs.Primaries
import NameAudit.Proofs.Spellings

/-!
Templates whose substitutions are names and templates again (`TemplateText`). The scanner passes a piece up
to the delimiter after it (`closeTemplate_chunk`), and the parser takes the substitutions one after the
other, each up to its brace, from which the scanner goes on with the next piece (`TemplateText.read`).
-/
namespace NameAudit

open Grammar (ofDepth)
open Scan (token PlainName Blank TemplateEnd closeTemplate)
open Text (byteLength)

/-- What stands in a substitution. -/
inductive TemplatePart where
  | name (n : PlainName)
  | template (parts : List TemplatePart)

/-- An expression is what stands in a substitution, wherever it stands. -/
inductive TemplatePart.Denotes : TemplatePart → Expr → Prop
  | name {n : PlainName} {span : Span} : Denotes (.name n) (.ident span n.text)
  | template {parts : List TemplatePart} {span : Span} {es : List Expr}
    (each : List.Forall₂ Denotes parts es) : Denotes (.template parts) (.template span none es)

/-- A piece of a template: each backslash hides a character, and neither a backtick nor the opening of a
substitution stands there unless it is hidden. -/
inductive TemplateChunk : List Char → Prop
  | nil : TemplateChunk []
  | escape {ch : Char} {cs : List Char} (later : TemplateChunk cs) : TemplateChunk ('\\' :: ch :: cs)
  | plain {ch : Char} {cs : List Char} (raw : ch ≠ '\\') (other : ch ≠ '\x60')
    (stays : ch = '$' → cs.head? ≠ some '\x7b') (later : TemplateChunk cs) : TemplateChunk (ch :: cs)

/-- The text of a template after its opening backtick, with what stands in its substitutions. -/
inductive TemplateText : List TemplatePart → List Char → Prop
  | closed {chunk : List Char} (piece : TemplateChunk chunk) : TemplateText [] (chunk ++ ['\x60'])
  | name {chunk before after more : List Char} {n : PlainName} {parts : List TemplatePart}
    (piece : TemplateChunk chunk) (blank : Blank before) (blank' : Blank after) (later : TemplateText parts more) :
    TemplateText (.name n :: parts)
      (chunk ++ '$' :: '\x7b' :: (before ++ (n.chars ++ (after ++ '\x7d' :: more))))
  | template {chunk before text after more : List Char} {inner parts : List TemplatePart}
    (piece : TemplateChunk chunk) (blank : Blank before) (blank' : Blank after) (inside : TemplateText inner text)
    (later : TemplateText parts more) :
    TemplateText (.template inner :: parts)
      (chunk ++ '$' :: '\x7b' :: (before ++ ('\x60' :: (text ++ (after ++ '\x7d' :: more)))))

/-! ### Pieces -/

/-- A piece is passed up to a delimiter. -/
theorem closeTemplate_chunk {chunk tail : List Char} {o : Nat} (piece : TemplateChunk chunk)
    (delimits : tail.head? ≠ some '\x7b') :
    closeTemplate o (chunk ++ tail) = closeTemplate (o + byteLength chunk) tail := by
  induction piece generalizing o with
  | nil => rfl
  | @escape ch cs _ ih =>
    rw [List.cons_append, List.cons_append, closeTemplate, ih, byteLength, byteLength, ← Nat.add_assoc,
      ← Nat.add_assoc]
    rfl
  | @plain ch cs raw other stays _ ih =>
    rw [List.cons_append, Scan.closeTemplate_cons raw, if_neg other, ih, byteLength, Nat.add_assoc]
    rintro more dollar same
    cases cs with
    | nil => exact delimits (by rw [← List.nil_append tail, same]; rfl)
    | cons second cs =>
      obtain ⟨rfl, -⟩ := List.cons_eq_cons.mp same
      exact stays dollar rfl

/-- A piece that a backtick or the opening of a substitution ends. -/
theorem closeTemplate_closed {chunk : List Char} (piece : TemplateChunk chunk) (o : Nat) (rest : List Char) :
    closeTemplate o (chunk ++ '\x60' :: rest) = .ok (.closed, ⟨o + byteLength chunk + 1, rest⟩) := by
  rw [closeTemplate_chunk piece (by rintro ⟨⟩), Scan.closeTemplate_cons (by decide), if_pos rfl]
  rintro tail ⟨⟩

theorem closeTemplate_substitution {chunk : List Char} (piece : TemplateChunk chunk) (o : Nat)
    (rest : List Char) :
    closeTemplate o (chunk ++ '$' :: '\x7b' :: rest) =
      .ok (.substitution, ⟨o + byteLength chunk + 2, rest⟩) := by
  rw [closeTemplate_chunk piece (by rintro ⟨⟩), closeTemplate]

/-- The kind of a piece by how it ends. -/
def Scan.TemplateEnd.kind (closed substitution : TokenKind) : TemplateEnd → TokenKind
  | .closed => closed
  | .substitution => substitution

section
variable {closed substitution : TokenKind} {stop : TemplateEnd} {o : Nat} {us cs : List Char} {d : Cursor}

theorem template_of_close {ch : Char} (small : ch.utf8Size = 1)
    (found : closeTemplate (o + 1) cs = .ok (stop, d)) :
    Scan.template closed substitution ⟨o, ch :: cs⟩ = .ok (stop.kind closed substitution, d) := by
  simp only [Scan.template, Cursor.skip, small, found]
  cases stop <;> rfl

/-- The piece that a backtick opens. -/
theorem token_backtick (blank : Blank us)
    (found : closeTemplate (o + byteLength us + 1) cs = .ok (stop, d)) :
    ∃ t, token .operator ⟨o, us ++ '\x60' :: cs⟩ = .ok (t, d) ∧
      t.kind = stop.kind .templateWhole .templateHead := by
  have begins : Scan.BeginsToken ('\x60' :: cs) := by
    intro ch tail same
    obtain ⟨rfl, rfl⟩ := List.cons_eq_cons.mp same
    exact ⟨by decide, by rintro ⟨⟩⟩
  have piece : Scan.lexeme .operator ⟨o + byteLength us, '\x60' :: cs⟩ =
      .ok (stop.kind .templateWhole .templateHead, d) := template_of_close rfl found
  obtain ⟨t, read, kind, -⟩ := Scan.token_of_lexeme blank begins piece
  exact ⟨t, read, kind⟩

/-- The piece that a brace opens. -/
theorem templateRest_of_close (found : closeTemplate (o + 1) cs = .ok (stop, d)) :
    ∃ t, Scan.templateRest ⟨o, '\x7d' :: cs⟩ = .ok (t, d) ∧
      t.kind = stop.kind .templateTail .templateMiddle := by
  refine ⟨Scan.tokenAt (stop.kind .templateTail .templateMiddle) {} ⟨o, '\x7d' :: cs⟩ d, ?_, rfl⟩
  simp only [Scan.templateRest, template_of_close (show '\x7d'.utf8Size = 1 from rfl) found]

end

/-! ### Substitutions -/

namespace Parser

section
variable {text us cs : List Char} {c d e : Cursor} {t u : Token} {x : Expr} {n o : Nat}
  {stop : TemplateEnd}

theorem leads_expression_of_assignment {g : Grammar} {ctx : Context} (first : Leads text c (g.assignment ctx) x d)
    (after : token .operator d = .ok (u, e)) (other : u.kind ≠ .punct .comma) :
    Leads text c (expression g ctx) x d :=
  first.bind (leads_loop_done ((leads_leave after other).bind (leads_pure _ _)))

/-- The piece after a substitution, from the brace that ends the substitution. -/
theorem leads_templateRest (text : List Char) (blank : Blank us)
    (found : closeTemplate (o + byteLength us + 1) cs = .ok (stop, d)) :
    ∃ t, Leads text ⟨o, us ++ '\x7d' :: cs⟩ templateRest t d ∧
      t.kind = stop.kind .templateTail .templateMiddle := by
  obtain ⟨close, closing, closes, span⟩ := Scan.token_bracket (o := o) blank
    (show ('\x7d', Punctuator.braceClose) ∈ Scan.brackets by decide) cs
  obtain ⟨t, piece, kind⟩ := templateRest_of_close found
  refine ⟨t, fun s stands => ?_, kind⟩
  have start : Cursor.Reaches ⟨o, us ++ '\x7d' :: cs⟩ ⟨o + byteLength us, '\x7d' :: cs⟩ := ⟨us, rfl, rfl⟩
  have read := (read_templateRest stands.reached).mpr
    ⟨close, _, _, closing, closes, start, by rw [span], piece⟩
  exact leads_of_reads reads_templateRest read s stands

variable {ys : List Expr} {read : List Expr} {kind : TokenKind} {f : Cursor}

/-- Whether a substitution follows a piece, as the piece ends. -/
theorem opensSubstitution_kind (stop : TemplateEnd) :
    opensSubstitution (stop.kind .templateWhole .templateHead) = (stop == .substitution) ∧
      opensSubstitution (stop.kind .templateTail .templateMiddle) = (stop == .substitution) := by
  cases stop <;> exact ⟨rfl, rfl⟩

/-- A substitution and the piece after it. -/
theorem leads_substitution {g : Grammar} (opens : opensSubstitution kind = true)
    (inside : Leads text c (expression g {}) x ⟨o, us ++ '\x7d' :: cs⟩) (blank : Blank us)
    (found : closeTemplate (o + byteLength us + 1) cs = .ok (stop, d)) (lt : cs.length < c.rest.length)
    (onward : ∀ kind, opensSubstitution kind = (stop == .substitution) →
      Leads text d (loop (substitutionsTurn g {}) (read ++ [x], kind)) ys f) :
    Leads text c (loop (substitutionsTurn g {}) (read, kind)) ys f := by
  obtain ⟨t, rest, same⟩ := leads_templateRest text blank found
  obtain ⟨passed, passes, -⟩ := Scan.closeTemplate_passes found
  have shorter : cs.length = passed.length + d.rest.length := passes.length
  refine leads_loop_again ?_ (show d.rest.length < c.rest.length by omega)
    (onward t.kind (same ▸ (opensSubstitution_kind stop).2))
  unfold substitutionsTurn
  rw [if_pos opens]
  exact inside.bind (rest.bind (leads_pure _ _))

/-- A template from its backtick. -/
theorem leads_template {g : Grammar} (blank : Blank us)
    (found : closeTemplate (o + byteLength us + 1) cs = .ok (stop, d))
    (inside : ∀ kind, opensSubstitution kind = (stop == .substitution) →
      Leads text d (loop (substitutionsTurn g {}) ([], kind)) ys e) :
    ∃ t span, token .operator ⟨o, us ++ '\x60' :: cs⟩ = .ok (t, d) ∧ t.kind.beginsPrimary = true ∧
      Leads text ⟨o, us ++ '\x60' :: cs⟩ (primary g {}) (.template span none ys) e := by
  obtain ⟨t, begin, kind⟩ := token_backtick blank found
  have begins : t.kind.beginsPrimary = true := by
    rw [kind]
    cases stop <;> rfl
  refine ⟨t, ⟨t.span.start, max e.offset t.span.start⟩, begin, begins, ?_⟩
  have whole : Leads text d (templateExpression g {} t none)
      (.template ⟨t.span.start, max e.offset t.span.start⟩ none ys) e :=
    (inside t.kind (kind ▸ (opensSubstitution_kind stop).1)).bind
      ((leads_since _ e).bind (leads_pure _ _))
  refine (leads_take (Scan.token_expecting begin (TokenKind.isSlash_of_begins begins))).bind ?_
  cases stop with
  | closed =>
    rw [show t.kind = .templateWhole from kind]
    exact whole
  | substitution =>
    rw [show t.kind = .templateHead from kind]
    exact whole

end
end Parser

section
open NameAudit.Parser

/-- From a position in a template the substitutions are read, and the template up to where it ends. -/
def SubstitutionsRead (source : List Char) (n : Nat) (c : Cursor) (parts : List TemplatePart) (e : Cursor) :
    Prop :=
  ∃ stop d, closeTemplate c.offset c.rest = .ok (stop, d) ∧
    ∃ es, List.Forall₂ TemplatePart.Denotes parts es ∧ ∀ read kind,
      opensSubstitution kind = (stop == .substitution) →
        Leads source d (loop (substitutionsTurn (ofDepth n) {}) (read, kind)) (read ++ es) e

section
variable {source : List Char} {n o o' : Nat} {parts : List TemplatePart} {part : TemplatePart} {x : Expr}
  {chunk before us rest cs : List Char} {c e : Cursor}

theorem substitutionsRead_closed (piece : TemplateChunk chunk) :
    SubstitutionsRead source n ⟨o, chunk ++ '\x60' :: rest⟩ [] ⟨o + byteLength chunk + 1, rest⟩ := by
  refine ⟨.closed, _, closeTemplate_closed piece o rest, [], .nil, fun read kind last => ?_⟩
  rw [List.append_nil]
  refine leads_loop_done ?_
  unfold substitutionsTurn
  rw [if_neg (by rw [last]; decide)]
  exact leads_pure _ _

/-- A substitution before others, whatever stands in it. -/
theorem substitutionsRead_next (piece : TemplateChunk chunk) (same : c.offset = o + byteLength chunk + 2)
    (denotes : part.Denotes x) (blank : Blank us)
    (inside : Leads source c (expression (ofDepth n) {}) x ⟨o', us ++ '\x7d' :: cs⟩)
    (lt : cs.length < c.rest.length)
    (later : SubstitutionsRead source n ⟨o' + byteLength us + 1, cs⟩ parts e) :
    SubstitutionsRead source n ⟨o, chunk ++ '$' :: '\x7b' :: c.rest⟩ (part :: parts) e := by
  obtain ⟨stop, d, found, es, each, onward⟩ := later
  refine ⟨.substitution, c, ?_, x :: es, .cons denotes each, fun read kind opens => ?_⟩
  · rw [closeTemplate_substitution piece, ← same]
  · refine leads_substitution (by rw [opens]; rfl) inside blank found lt fun kind last => ?_
    have all := onward (read ++ [x]) kind last
    rwa [List.append_assoc] at all

/-- What stands in a substitution, up to the brace. -/
theorem leads_substitution_primary {t : Token} {c' : Cursor} (deep : 4 ≤ n)
    (begin : token .operator c = .ok (t, c')) (begins : t.kind.beginsPrimary = true) (blank : Blank us)
    (alone : Leads source c (primary (ofDepth (n - 4)) {}) x ⟨o, us ++ '\x7d' :: cs⟩) :
    Leads source c (expression (ofDepth n) {}) x ⟨o, us ++ '\x7d' :: cs⟩ := by
  obtain ⟨u, next, brace, -⟩ := Scan.token_bracket (o := o) blank
    (show ('\x7d', Punctuator.braceClose) ∈ Scan.brackets by decide) cs
  obtain ⟨k, rfl⟩ : ∃ k, n = k + 4 := ⟨n - 4, by omega⟩
  have whole := leads_assignment_of_primary begin begins next (.brace brace) alone
  exact leads_expression_of_assignment whole next (by rw [brace]; rintro ⟨⟩)

/-- A name in a substitution. -/
theorem leads_substitution_name (source cs : List Char) (name : PlainName) (blank : Blank before)
    (blank' : Blank us) (deep : 4 ≤ n) :
    ∃ x, (TemplatePart.name name).Denotes x ∧
      Leads source ⟨o, before ++ (name.chars ++ (us ++ '\x7d' :: cs))⟩ (expression (ofDepth n) {}) x
        ⟨o + byteLength before + byteLength name.chars, us ++ '\x7d' :: cs⟩ := by
  obtain ⟨t, read, names⟩ := Scan.token_name (o := o) blank name
    ((Scan.endsName_bracket (by decide : ('\x7d', Punctuator.braceClose) ∈ Scan.brackets) cs).after_blank blank')
  obtain ⟨u, next, brace, -⟩ := Scan.token_bracket (o := o + byteLength before + byteLength name.chars) blank'
    (show ('\x7d', Punctuator.braceClose) ∈ Scan.brackets by decide) cs
  have begins : t.kind.beginsPrimary = true := by
    rw [names.1]
    rfl
  have ends : u.kind.continuesOperand = false := TokenKind.EndsItem.continuesOperand (.brace brace)
  exact ⟨_, .name, leads_substitution_primary deep read begins blank' (leads_name read names next ends)⟩

/-- A template in a substitution. -/
theorem leads_substitution_template (blank : Blank before) (blank' : Blank us) (deep : 4 ≤ n) {text : List Char}
    (inside : SubstitutionsRead source (n - 4) ⟨o + byteLength before + 1, text⟩ parts
      ⟨o', us ++ '\x7d' :: cs⟩) :
    ∃ x, (TemplatePart.template parts).Denotes x ∧
      Leads source ⟨o, before ++ '\x60' :: text⟩ (expression (ofDepth n) {}) x ⟨o', us ++ '\x7d' :: cs⟩ := by
  obtain ⟨stop, d, found, es, each, onward⟩ := inside
  obtain ⟨t, span, read, begins, alone⟩ := leads_template blank found (onward [])
  exact ⟨_, .template each, leads_substitution_primary deep read begins blank' alone⟩

/-- The substitutions of a template are read in order, and the template up to its closing backtick. -/
theorem TemplateText.read {text : List Char} (written : TemplateText parts text)
    (fits : 8 * (text ++ rest).length + 4 ≤ n) {stop : Nat} (ends : stop = o + byteLength text) :
    SubstitutionsRead source n ⟨o, text ++ rest⟩ parts ⟨stop, rest⟩ := by
  have sizes : '$'.utf8Size = 1 ∧ '\x7b'.utf8Size = 1 ∧ '\x7d'.utf8Size = 1 ∧ '\x60'.utf8Size = 1 := by decide
  induction written generalizing rest o n stop with
  | @closed chunk piece =>
    rw [Text.byteLength_append, ← Nat.add_assoc] at ends
    rw [List.append_assoc, ends]
    exact substitutionsRead_closed piece
  | @name chunk before after more name parts piece blank blank' later ih =>
    simp only [List.append_assoc, List.cons_append, List.length_append, List.length_cons] at fits ⊢
    simp only [Text.byteLength_append, byteLength, sizes] at ends
    obtain ⟨x, denotes, inside⟩ := leads_substitution_name (n := n) (o := o + byteLength chunk + 2) source
      (more ++ rest) name blank blank' (by omega)
    refine substitutionsRead_next piece rfl denotes blank' inside ?_ (ih ?_ ?_)
    · simp only [List.length_append, List.length_cons]
      omega
    · rw [List.length_append]
      omega
    · omega
  | @template chunk before text after more inner parts piece blank blank' inside later ihInside ih =>
    simp only [List.append_assoc, List.cons_append, List.length_append, List.length_cons] at fits ⊢
    simp only [Text.byteLength_append, byteLength, sizes] at ends
    let o₁ := o + byteLength chunk + 2 + byteLength before + 1
    have template : SubstitutionsRead source (n - 4) ⟨o₁, text ++ (after ++ '\x7d' :: (more ++ rest))⟩ inner
        ⟨o₁ + byteLength text, after ++ '\x7d' :: (more ++ rest)⟩ :=
      ihInside (by simp only [List.length_append, List.length_cons]; omega) rfl
    obtain ⟨x, denotes, inside⟩ := leads_substitution_template blank blank' (by omega) template
    refine substitutionsRead_next piece rfl denotes blank' inside ?_ (ih ?_ ?_)
    · simp only [List.length_append, List.length_cons]
      omega
    · rw [List.length_append]
      omega
    · omega

end

/-- A template with names and templates in its substitutions is read whole, and is a template without a tag
with these substitutions in order. -/
theorem expression_of_template {parts : List TemplatePart} {text : List Char}
    (written : TemplateText parts text) :
    ∃ span es s, expression (Grammar.forSource ('\x60' :: text)) {} (.ofSource ('\x60' :: text)) =
        .ok (.template span none es, s) ∧
      List.Forall₂ TemplatePart.Denotes parts es ∧ s.prevEnd = byteLength ('\x60' :: text) := by
  let n := 8 * text.length
  obtain ⟨stop, d, found, es, each, onward⟩ : SubstitutionsRead ('\x60' :: text) (n + 12) ⟨1, text ++ []⟩ parts
      ⟨1 + byteLength text, []⟩ := written.read (by simp only [List.append_nil, n]; omega) rfl
  rw [List.append_nil] at found
  obtain ⟨t, span, begin, begins, alone⟩ := leads_template (o := 0) Scan.blank_nil found (onward [])
  obtain ⟨u, after, ended⟩ := token_end (1 + byteLength text)
  have whole := leads_assignment_of_primary begin begins after (.inl ended) alone
  obtain ⟨s, done, stands⟩ := leads_expression_of_assignment whole after (by rw [ended]; rintro ⟨⟩)
    (.ofSource ('\x60' :: text)) (ParserState.at_ofSource _)
  exact ⟨span, es, s, done, each, stands.prevEnd⟩

/-- A template with a name and with another template, each next to a character of a delimiter. -/
theorem expression_of_template_nested :
    ∃ (x y : PlainName) (span : Span) (es : List Expr) (s : ParserState),
      x.text = "x" ∧ y.text = "y" ∧
      expression (Grammar.forSource "`\x7b$$\x7b x \x7d\\`$\x7b`$\x7by\x7d`\x7d$`".toList) {}
          (.ofSource "`\x7b$$\x7b x \x7d\\`$\x7b`$\x7by\x7d`\x7d$`".toList) = .ok (.template span none es, s) ∧
        List.Forall₂ TemplatePart.Denotes [.name x, .template [.name y]] es ∧ s.prevEnd = 22 := by
  let x : PlainName := ⟨['x'], ⟨'x', [], rfl, by decide⟩, List.all_eq_true.mp (by decide), by decide⟩
  let y : PlainName := ⟨['y'], ⟨'y', [], rfl, by decide⟩, List.all_eq_true.mp (by decide), by decide⟩
  have brace : TemplateChunk ['\x7b', '$'] :=
    .plain (by decide) (by decide) (by decide) (.plain (by decide) (by decide) (by decide) .nil)
  have hidden : TemplateChunk ['\\', '\x60'] := .escape .nil
  have dollar : TemplateChunk ['$'] := .plain (by decide) (by decide) (by decide) .nil
  have inner : TemplateText [.name y] "$\x7by\x7d`".toList :=
    .name .nil Scan.blank_nil Scan.blank_nil (.closed .nil)
  have spaced : Blank [' '] := Scan.blank_singleton (by decide)
  have written : TemplateText [.name x, .template [.name y]] "\x7b$$\x7b x \x7d\\`$\x7b`$\x7by\x7d`\x7d$`".toList :=
    .name brace spaced spaced (.template hidden Scan.blank_nil Scan.blank_nil inner (.closed dollar))
  obtain ⟨span, es, s, read, each, stop⟩ := expression_of_template written
  exact ⟨x, y, span, es, s, rfl, rfl, read, each, stop⟩

end
end NameAudit
