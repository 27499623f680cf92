import Mathlib
import NameAudit.Proofs.PatternTexts

/-!
How names and punctuators are written. Blanks before a token do not change it (`token_of_lexeme`), a name is
read part by part up to the first character that is none of its own (`lexeme_textOf`, `token_name`), and a
punctuator before a space is read whole (`lexeme_punct`).
-/
namespace NameAudit

open Text (byteLength)

/-! ### Blanks -/

theorem Text.isIdContinue_of_isSpace {ch : Char} (space : Scan.isSpace ch = true) :
    isIdContinue ch = false := by
  have table : ∀ n ∈ [9, 10, 11, 12, 13, 0x20, 0x85, 0xA0, 0x1680, 0x2000, 0x2001, 0x2002, 0x2003, 0x2004,
      0x2005, 0x2006, 0x2007, 0x2008, 0x2009, 0x200A, 0x2028, 0x2029, 0x202F, 0x205F, 0x3000, 0xfeff],
      isIdContinue (Char.ofNat n) = false := by decide +kernel
  have number := table ch.toNat
  rw [Char.ofNat_toNat] at number
  refine number ?_
  simp only [Scan.isSpace, isBlank, Bool.or_eq_true, Bool.and_eq_true, decide_eq_true_eq, beq_iff_eq] at space
  simp only [List.mem_cons, List.not_mem_nil, or_false]
  rcases space with blank | rfl
  · omega
  · decide

namespace Scan

open NamePart (Begins textOf textOf_cons textOf_map_raw)

/-- Nothing but blanks. -/
def Blank (us : List Char) : Prop := ∀ ch ∈ us, isSpace ch = true

/-- A text that begins with neither a blank nor a comment. -/
def BeginsToken (cs : List Char) : Prop :=
  ∀ ch tail, cs = ch :: tail →
    isSpace ch = false ∧ (ch = '/' → tail.head? ≠ some '/' ∧ tail.head? ≠ some '*')

/-- A text that does not go on with a name before it. -/
def EndsName (cs : List Char) : Prop :=
  ∀ ch tail, cs = ch :: tail → Text.isIdContinue ch = false ∧ ch ≠ '\\'

section
variable {us cs rest : List Char} {o : Nat} {d : Cursor} {expecting : Expecting} {kind : TokenKind}

theorem isSpace_of_isLineTerminator {ch : Char} (ends : Text.isLineTerminator ch = true) :
    isSpace ch = true := by
  rw [isSpace, Text.isBlank_of_isLineTerminator ends, Bool.true_or]

theorem beginsToken_nil : BeginsToken [] := by
  rintro _ _ ⟨⟩

theorem endsName_nil : EndsName [] := by
  rintro _ _ ⟨⟩

theorem blank_nil : Blank [] := List.forall_mem_nil _

theorem blank_singleton {ch : Char} (space : isSpace ch = true) : Blank [ch] :=
  List.forall_mem_singleton.mpr space

theorem trivia_blank (blank : Blank us) (cs : List Char) (seen : Trivia) :
    ∃ noted, trivia seen ⟨o, us ++ cs⟩ = trivia noted ⟨o + byteLength us, cs⟩ := by
  induction us generalizing o seen with
  | nil => exact ⟨seen, rfl⟩
  | cons ch us ih =>
    have space : isSpace ch = true := blank ch List.mem_cons_self
    have step : trivia seen ⟨o, ch :: us ++ cs⟩ =
        trivia { seen with newline := seen.newline || Text.isLineTerminator ch } ⟨o + ch.utf8Size, us ++ cs⟩ := by
      rw [trivia_char seen rfl]
      · by_cases ends : Text.isLineTerminator ch = true
        · rw [if_pos ends, ends, Bool.or_true]
          rfl
        · rw [if_neg ends, if_pos space, Bool.eq_false_iff.mpr ends, Bool.or_false]
          rfl
      · rintro rfl
        exact absurd space (by decide)
    obtain ⟨noted, same⟩ := ih (o := o + ch.utf8Size) (fun ch member => blank ch (List.mem_cons_of_mem _ member))
      { seen with newline := seen.newline || Text.isLineTerminator ch }
    refine ⟨noted, ?_⟩
    rw [step, same, byteLength, Nat.add_assoc]

theorem trivia_begins (begins : BeginsToken cs) (seen : Trivia) :
    trivia seen ⟨o, cs⟩ = .ok (seen, ⟨o, cs⟩) := by
  cases cs with
  | nil => rw [trivia]
  | cons ch tail =>
    obtain ⟨other, plain⟩ := begins ch tail rfl
    rw [trivia_char seen rfl plain, if_neg, if_neg (Bool.eq_false_iff.mp other)]
    intro ends
    exact absurd (isSpace_of_isLineTerminator ends) (Bool.eq_false_iff.mp other)

/-- Blanks before a token do not change it. -/
theorem token_of_lexeme (blank : Blank us) (begins : BeginsToken cs)
    (found : lexeme expecting ⟨o + byteLength us, cs⟩ = .ok (kind, d)) :
    ∃ t, token expecting ⟨o, us ++ cs⟩ = .ok (t, d) ∧ t.kind = kind ∧
      t.span = ⟨o + byteLength us, d.offset⟩ ∧
      t.text = String.ofList (Cursor.upTo ⟨o + byteLength us, cs⟩ d.offset) := by
  obtain ⟨noted, same⟩ := trivia_blank (o := o) blank cs {}
  have gap := same.trans (trivia_begins begins noted)
  exact ⟨_, token_eq_ok_iff.mpr ⟨noted, _, kind, gap, found, rfl⟩, rfl, rfl, rfl⟩

end

/-! ### Names -/

/-- A name that is no reserved word, written without escapes. -/
structure PlainName where
  chars : List Char
  begins : ∃ first tail, chars = first :: tail ∧ Text.isIdStart first = true
  inside : ∀ ch ∈ chars, Text.isIdContinue ch = true
  free : Keyword.ofText? (String.ofList chars) = none

namespace PlainName

/-- The name as a string. -/
def text (n : PlainName) : String := String.ofList n.chars

end PlainName

section
variable {us cs rest : List Char} {o : Nat} {d : Cursor} {expecting : Expecting} {kind : TokenKind}

/-! #### Names part by part -/

/-- A name goes on after a character that can continue it. -/
theorem name_continue {escaped : Bool} {ch : Char} (accepted : Text.isIdContinue ch = true) :
    name escaped ⟨o, ch :: cs⟩ = name escaped ⟨o + ch.utf8Size, cs⟩ := by
  have same : Cursor.skipWhile Text.isIdContinue ⟨o, ch :: cs⟩ =
      Cursor.skipWhile Text.isIdContinue ⟨o + ch.utf8Size, cs⟩ := Cursor.skipWhile_of_accepted rfl accepted
  rw [name.eq_def, name.eq_def escaped ⟨o + ch.utf8Size, cs⟩]
  dsimp only
  rw [same]

/-- A name goes on after an escape. -/
theorem name_escaped {escaped : Bool} {ch : Char} {body : List Char}
    (decoded : Escape.codePoint? body = some (ch, body.length)) :
    name escaped ⟨o, '\\' :: 'u' :: (body ++ cs)⟩ = name true ⟨o + byteLength ('\\' :: 'u' :: body), cs⟩ := by
  have stop : Cursor.skipWhile Text.isIdContinue ⟨o, '\\' :: 'u' :: (body ++ cs)⟩ =
      ⟨o, '\\' :: 'u' :: (body ++ cs)⟩ := Cursor.skipWhile_of_refused rfl (by decide)
  have own : Cursor.Passes ⟨o, '\\' :: 'u' :: (body ++ cs)⟩ ('\\' :: 'u' :: body)
      ⟨o + byteLength ('\\' :: 'u' :: body), cs⟩ := ⟨rfl, rfl⟩
  obtain ⟨-, again⟩ := codePoint?_append cs decoded
  rw [name_escape (by rw [stop]) again, stop]
  exact congrArg _ ((Cursor.passes_skip_of_rest ('\\' :: 'u' :: body) rfl).unique own)

/-- A name ends before what does not go on with it. -/
theorem name_ends {escaped : Bool} (ends : EndsName rest) :
    name escaped ⟨o, rest⟩ = .ok (escaped, ⟨o, rest⟩) := by
  cases rest with
  | nil =>
    rw [name.eq_def]
    rfl
  | cons ch rest =>
    obtain ⟨refused, plain⟩ := ends ch rest rfl
    have stop : Cursor.skipWhile Text.isIdContinue ⟨o, ch :: rest⟩ = ⟨o, ch :: rest⟩ :=
      Cursor.skipWhile_of_refused rfl refused
    rw [name_stop (by rw [stop]) plain, stop]

/-- The scanner passes the parts of a name, up to what does not go on with it. -/
theorem name_textOf {ps : List NamePart} {escaped : Bool} (passable : ∀ p ∈ ps, p.Passable)
    (ends : EndsName rest) :
    name escaped ⟨o, textOf ps ++ rest⟩ =
      .ok (escaped || ps.any (·.isEscape), ⟨o + byteLength (textOf ps), rest⟩) := by
  induction ps generalizing o escaped with
  | nil =>
    rw [List.any_nil, Bool.or_false]
    exact name_ends ends
  | cons p ps ih =>
    obtain ⟨first, later⟩ := List.forall_mem_cons.mp passable
    have onward : name escaped ⟨o, textOf (p :: ps) ++ rest⟩ =
        name (escaped || p.isEscape) ⟨o + byteLength p.text, textOf ps ++ rest⟩ := by
      rw [textOf_cons, List.append_assoc]
      cases p with
      | raw ch =>
        rw [NamePart.isEscape, Bool.or_false]
        exact name_continue first
      | escape ch body =>
        rw [NamePart.isEscape, Bool.or_true]
        exact name_escaped first
    rw [onward, ih later, List.any_cons, Bool.or_assoc, textOf_cons, Text.byteLength_append, Nat.add_assoc]

/-- An identifier or a reserved word is read up to the first character that is none of its own. -/
theorem lexeme_textOf {ps : List NamePart} (passable : ∀ p ∈ ps, p.Passable) (begins : Begins ps)
    (ends : EndsName rest) :
    lexeme expecting ⟨o, textOf ps ++ rest⟩ =
      .ok (wordKind (ps.any (·.isEscape)) (textOf ps), ⟨o + byteLength (textOf ps), rest⟩) := by
  have enters : lexeme expecting ⟨o, textOf ps ++ rest⟩ = word ⟨o, textOf ps ++ rest⟩ := by
    obtain ⟨first, tail, same, starts⟩ := begins.first
    simp only [lexeme, same, List.cons_append, starts, if_true]
  have passes : Cursor.Passes ⟨o, textOf ps ++ rest⟩ (textOf ps) ⟨o + byteLength (textOf ps), rest⟩ := ⟨rfl, rfl⟩
  rw [enters, word, name_textOf passable ends]
  dsimp only
  rw [Cursor.upTo_of_passes passes, Bool.false_or]

/-! #### Plain names -/

/-- A word is read up to the first character that is none of its own. -/
theorem lexeme_word {first : Char} {tail : List Char} (begins : Text.isIdStart first = true)
    (inside : ∀ ch ∈ first :: tail, Text.isIdContinue ch = true) (ends : EndsName rest) :
    lexeme expecting ⟨o, first :: tail ++ rest⟩ =
      .ok (wordKind false (first :: tail), ⟨o + byteLength (first :: tail), rest⟩) := by
  have raw : ∀ p ∈ (first :: tail).map NamePart.raw, p.Passable := List.forall_mem_map.mpr inside
  have plain : ((first :: tail).map NamePart.raw).any (·.isEscape) = false := by simp [NamePart.isEscape]
  have read : lexeme expecting ⟨o, textOf ((first :: tail).map .raw) ++ rest⟩ = _ := lexeme_textOf raw begins ends
  rwa [textOf_map_raw, plain] at read

theorem beginsToken_word {first : Char} {tail : List Char} (begins : Text.isIdStart first = true) :
    BeginsToken (first :: tail ++ rest) := by
  intro ch tail' same
  obtain ⟨rfl, -⟩ := List.cons_eq_cons.mp same
  refine ⟨Bool.eq_false_iff.mpr fun space => ?_, ?_⟩
  · have inside := Text.isIdContinue_of_isIdStart begins
    rw [Text.isIdContinue_of_isSpace space] at inside
    cases inside
  · rintro rfl
    exact absurd begins (by decide)

theorem beginsToken_textOf {ps : List NamePart} (begins : Begins ps) : BeginsToken (textOf ps ++ rest) := by
  cases ps with
  | nil => cases begins
  | cons p ps =>
    cases p with
    | raw ch => exact (beginsToken_word begins : BeginsToken (ch :: textOf ps ++ rest))
    | escape ch body =>
      intro first tail same
      obtain ⟨rfl, -⟩ := List.cons_eq_cons.mp same
      exact ⟨by decide, fun slash => absurd slash (by decide)⟩

theorem identifier?_of_plain {cs : List Char} (plain : '\\' ∉ cs) : Escape.identifier? cs = some cs := by
  induction cs with
  | nil => rw [Escape.identifier?]
  | cons ch cs ih =>
    obtain ⟨other, later⟩ := List.ne_and_not_mem_of_not_mem_cons plain
    rw [Escape.identifier?, if_neg other.symm, ih later]
    · rfl
    · rintro tail rfl
      exact absurd rfl other

/-- A plain name is read up to the first character that is none of its own. -/
theorem token_name (blank : Blank us) (n : PlainName) (ends : EndsName rest) :
    ∃ t, token .operator ⟨o, us ++ (n.chars ++ rest)⟩ =
        .ok (t, ⟨o + byteLength us + byteLength n.chars, rest⟩) ∧ t.Names n.text := by
  obtain ⟨first, tail, same, begins⟩ := n.begins
  have found : lexeme .operator ⟨o + byteLength us, n.chars ++ rest⟩ =
      .ok (.identifier, ⟨o + byteLength us + byteLength n.chars, rest⟩) := by
    rw [same, lexeme_word begins (same ▸ n.inside) ends, wordKind, ← same, n.free]
  have starts : BeginsToken (n.chars ++ rest) := by
    rw [same]
    exact beginsToken_word begins
  obtain ⟨t, read, kind, -, spelling⟩ := token_of_lexeme blank starts found
  refine ⟨t, read, kind, ?_⟩
  have passes : Cursor.Passes ⟨o + byteLength us, n.chars ++ rest⟩ n.chars
      ⟨o + byteLength us + byteLength n.chars, rest⟩ := ⟨rfl, rfl⟩
  have plain : '\\' ∉ n.chars := fun member => absurd (n.inside _ member) (by decide)
  rw [spelling, Cursor.upTo_of_passes passes, String.toList_ofList, identifier?_of_plain plain]
  rfl

/-! ### Tokens with a fixed text -/

theorem endsName_space (cs : List Char) : EndsName (' ' :: cs) := by
  rintro ch tail same
  obtain ⟨rfl, rfl⟩ := List.cons_eq_cons.mp same
  exact ⟨by decide, by decide⟩

/-- Blanks end a name, and so does what ends it after them. -/
theorem EndsName.after_blank (ends : EndsName cs) (blank : Blank us) : EndsName (us ++ cs) := by
  cases us with
  | nil => exact ends
  | cons first us =>
    rintro ch tail same
    obtain ⟨rfl, -⟩ := List.cons_eq_cons.mp same
    have space := blank first List.mem_cons_self
    refine ⟨Text.isIdContinue_of_isSpace space, ?_⟩
    rintro rfl
    exact absurd space (by decide)

theorem lexeme_punct (p : Punctuator) (o : Nat) (rest : List Char) :
    lexeme .operator ⟨o, p.text.toList ++ ' ' :: rest⟩ =
      .ok (.punct p, ⟨o + byteLength p.text.toList, ' ' :: rest⟩) := by
  cases p <;> cbv

/-- No punctuator begins a comment. -/
theorem punctuator_text (p : Punctuator) : ∃ ch tail, p.text.toList = ch :: tail ∧
    isSpace ch = false ∧ (ch = '/' → tail.head? ≠ some '/' ∧ tail.head? ≠ some '*') := by
  cases p <;> exact ⟨_, _, rfl, by decide, by decide⟩

theorem beginsToken_punct (p : Punctuator) (rest : List Char) :
    BeginsToken (p.text.toList ++ ' ' :: rest) := by
  obtain ⟨ch, tail, same, other, plain⟩ := punctuator_text p
  rw [same]
  intro ch' tail' whole
  obtain ⟨rfl, rfl⟩ := List.cons_eq_cons.mp whole
  refine ⟨other, fun slash => ?_⟩
  cases tail with
  | nil => exact ⟨by simp, by simp⟩
  | cons second tail => exact plain slash

/-- The text of a reserved word is a name but for its meaning. -/
theorem keyword_text (k : Keyword) : ∃ first tail, k.text.toList = first :: tail ∧
    Text.isIdStart first = true ∧ (∀ ch ∈ first :: tail, Text.isIdContinue ch = true) ∧
    wordKind false (first :: tail) = .word k := by
  cases k <;> exact ⟨_, _, rfl, by decide, List.all_eq_true.mp (by decide), by decide⟩

/-- A token with a fixed text is read whole before a space. -/
theorem token_fixed (blank : Blank us) {s : String} (spelled : kind.text? = some s) (rest : List Char) :
    ∃ t, token .operator ⟨o, us ++ (s.toList ++ ' ' :: rest)⟩ =
        .ok (t, ⟨o + byteLength us + byteLength s.toList, ' ' :: rest⟩) ∧ t.kind = kind := by
  have both : BeginsToken (s.toList ++ ' ' :: rest) ∧ lexeme .operator ⟨o + byteLength us, s.toList ++ ' ' :: rest⟩ =
      .ok (kind, ⟨o + byteLength us + byteLength s.toList, ' ' :: rest⟩) := by
    cases kind with
    | punct p =>
      obtain rfl := Option.some.inj spelled
      exact ⟨beginsToken_punct p rest, lexeme_punct p _ rest⟩
    | word k =>
      obtain rfl := Option.some.inj spelled
      obtain ⟨first, tail, same, begins, inside, reserved⟩ := keyword_text k
      rw [same]
      refine ⟨beginsToken_word begins, ?_⟩
      rw [lexeme_word begins inside (endsName_space rest), reserved]
    | _ => cases spelled
  obtain ⟨t, read, same, -⟩ := token_of_lexeme blank both.1 both.2
  exact ⟨t, read, same⟩

/-- The punctuators that nothing after them can make longer. -/
def brackets : List (Char × Punctuator) :=
  [('(', .parenOpen), (')', .parenClose), (',', .comma), ('\x7d', .braceClose)]

theorem endsName_bracket {p : Punctuator} {ch : Char} (alone : (ch, p) ∈ brackets) (cs : List Char) :
    EndsName (ch :: cs) := by
  rintro ch' tail same
  obtain ⟨rfl, rfl⟩ := List.cons_eq_cons.mp same
  simp only [brackets, List.mem_cons, List.not_mem_nil, or_false, Prod.mk.injEq] at alone
  rcases alone with ⟨rfl, -⟩ | ⟨rfl, -⟩ | ⟨rfl, -⟩ | ⟨rfl, -⟩ <;> exact ⟨by decide, by decide⟩

theorem token_bracket (blank : Blank us) {p : Punctuator} {ch : Char} (alone : (ch, p) ∈ brackets)
    (rest : List Char) :
    ∃ t, token .operator ⟨o, us ++ ch :: rest⟩ = .ok (t, ⟨o + byteLength us + 1, rest⟩) ∧
      t.kind = .punct p ∧ t.span = ⟨o + byteLength us, o + byteLength us + 1⟩ := by
  have both : BeginsToken (ch :: rest) ∧
      lexeme .operator ⟨o + byteLength us, ch :: rest⟩ = .ok (.punct p, ⟨o + byteLength us + 1, rest⟩) := by
    simp only [brackets, List.mem_cons, List.not_mem_nil, or_false, Prod.mk.injEq] at alone
    rcases alone with ⟨rfl, rfl⟩ | ⟨rfl, rfl⟩ | ⟨rfl, rfl⟩ | ⟨rfl, rfl⟩ <;> refine ⟨?_, by cbv⟩ <;>
      · intro ch tail same
        obtain ⟨rfl, rfl⟩ := List.cons_eq_cons.mp same
        exact ⟨rfl, by simp⟩
  obtain ⟨t, read, same, span, -⟩ := token_of_lexeme blank both.1 both.2
  exact ⟨t, read, same, span⟩

end
end Scan
end NameAudit
