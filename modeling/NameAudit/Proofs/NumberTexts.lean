import Mathlib
import NameAudit.Proofs.TokenStream

/-!
The texts of numbers. A number is a letter for its radix with a run of digits, or a mantissa that may have a fraction
and an exponent (`Numeral`). In a run, separators stand beside the digits and count as well: the scanner asks only
whether a run that it announces, by the letter of a radix or of an exponent, is empty. So such a run may hold
separators alone, while a mantissa always has a digit, since a number is told by one (`number_has_digits`).
-/
namespace NameAudit.Scan

/-- The character is a digit in the radix. -/
def DigitOf (radix : Nat) (ch : Char) : Prop := ∃ v < radix, Escape.hexDigit? ch = some v

/-- A run of digits and separators in some radix. -/
structure Run where
  radix : Nat
  text : List Char

/-- A run holds some character, and only digits and separators. -/
structure Run.Filled (r : Run) : Prop where
  some : r.text ≠ []
  only : ∀ ch ∈ r.text, ch = '_' ∨ DigitOf r.radix ch

def Run.HasDigit (r : Run) : Prop := ∃ ch ∈ r.text, DigitOf r.radix ch

/-- An exponent, with its letter and its sign, if it has one. -/
structure Exponent where
  letter : Char
  sign : List Char
  run : List Char

def Exponent.text (e : Exponent) : List Char := e.letter :: (e.sign ++ e.run)

/-- A number without the `n` of a big integer, in its parts. -/
inductive Numeral where
  | radix (letter : Char) (run : Run)
  | decimal (whole : List Char) (fraction : Option (List Char)) (exponent : Option Exponent)

namespace Numeral

def text : Numeral → List Char
  | radix letter run => '0' :: letter :: run.text
  | decimal whole fraction exponent => whole ++ (fraction.elim [] ('.' :: ·) ++ exponent.elim [] Exponent.text)

/-- The letters are those of the grammar, and so is the sign. -/
def Lettered : Numeral → Prop
  | radix letter run => (letter.toLower, run.radix) ∈ [('x', 16), ('o', 8), ('b', 2)]
  | decimal _ _ exponent => ∀ e ∈ exponent, e.letter.toLower = 'e' ∧ e.sign ∈ [[], ['+'], ['-']]

/-- The digits of a decimal before its exponent. -/
def mantissa : Numeral → List Run
  | radix _ _ => []
  | decimal whole fraction _ => [⟨10, whole ++ fraction.getD []⟩]

/-- The runs that a letter announces. -/
def announced : Numeral → List Run
  | radix _ run => [run]
  | decimal _ _ exponent => exponent.toList.map fun e => ⟨10, e.run⟩

/-- The runs that hold a digit in the grammar. -/
def required (n : Numeral) : List Run := n.mantissa ++ n.announced

end Numeral

section
variable {radix stop : Nat} {ch : Char} {cs : List Char} {c d : Cursor} {t : Token} {kind : TokenKind}

/-! ### Runs -/

theorem isDigitOf_iff : isDigitOf radix ch = true ↔ ch = '_' ∨ DigitOf radix ch := by
  unfold isDigitOf DigitOf
  cases Escape.hexDigit? ch <;> simp

/-- A run that is filled lacks a digit only if it holds nothing but separators. -/
theorem Run.Filled.hasDigit_iff {r : Run} (filled : r.Filled) : r.HasDigit ↔ ∃ ch ∈ r.text, ch ≠ '_' := by
  constructor
  · rintro ⟨ch, member, v, -, value⟩
    refine ⟨ch, member, ?_⟩
    rintro rfl
    cases value
  · rintro ⟨ch, member, other⟩
    exact ⟨ch, member, (filled.only ch member).resolve_left other⟩

theorem digits_passes (radix : Nat) (c : Cursor) : c.Passes (c.rest.takeWhile (isDigitOf radix)) (digits radix c) :=
  c.passes_skipWhile _

theorem digits_only : ∀ ch ∈ cs.takeWhile (isDigitOf radix), ch = '_' ∨ DigitOf radix ch :=
  fun _ member => isDigitOf_iff.mp (List.mem_takeWhile_imp member)

/-- A run that begins with a digit has one. -/
theorem exists_digit (starts : startsWithDigit cs = true) : ∃ ch ∈ cs.takeWhile (isDigitOf 10), DigitOf 10 ch := by
  cases cs with
  | nil => cases starts
  | cons ch cs =>
    have digit : ch.isDigit = true := starts
    have accepted := isDigitOf_of_isDigit digit
    refine ⟨ch, by simp [accepted], (isDigitOf_iff.mp accepted).resolve_left ?_⟩
    rintro rfl
    cases digit

/-- The check for digits that have to be there. -/
theorem announced_passes (found : (if (digits radix c).offset = c.offset then .error (digits radix c).offset
      else .ok (digits radix c) : Except Nat Cursor) = .ok d) :
    ∃ run, c.Passes run d ∧ (⟨radix, run⟩ : Run).Filled := by
  have passes := digits_passes radix c
  by_cases still : (digits radix c).offset = c.offset
  · simp [still] at found
  · simp only [still, if_false, Except.ok.injEq] at found
    obtain rfl := found
    refine ⟨_, passes, fun nothing => ?_, digits_only⟩
    rw [show c.rest.takeWhile (isDigitOf radix) = [] from nothing] at passes
    exact still passes.2

/-! ### The parts of a number -/

theorem radixOf?_passes (found : radixOf? c.rest = some radix) :
    ∃ letter, c.Passes ['0', letter] (c.skip 2) ∧ (letter.toLower, radix) ∈ [('x', 16), ('o', 8), ('b', 2)] := by
  unfold radixOf? at found
  split at found
  case h_7 => cases found
  all_goals
    next here =>
    obtain rfl := Option.some.inj found
    exact ⟨_, Cursor.passes_skip_of_rest [_, _] here, by decide⟩

theorem skipSign_passes (c : Cursor) : ∃ sign ∈ [[], ['+'], ['-']], c.Passes sign (skipSign c) := by
  unfold skipSign
  split
  next here => exact ⟨['+'], by simp, Cursor.passes_skip_of_rest ['+'] here⟩
  next here => exact ⟨['-'], by simp, Cursor.passes_skip_of_rest ['-'] here⟩
  next => exact ⟨[], by simp, .refl c⟩

theorem exponentStart?_passes (found : exponentStart? c = some d) :
    ∃ letter sign, c.Passes (letter :: sign) d ∧ letter.toLower = 'e' ∧ sign ∈ [[], ['+'], ['-']] := by
  obtain ⟨sign, signs, passes⟩ := skipSign_passes (c.skip 1)
  unfold exponentStart? at found
  split at found
  next here =>
    obtain rfl := Option.some.inj found
    exact ⟨'e', sign, (Cursor.passes_skip_of_rest ['e'] here).trans passes, by decide, signs⟩
  next here =>
    obtain rfl := Option.some.inj found
    exact ⟨'E', sign, (Cursor.passes_skip_of_rest ['E'] here).trans passes, by decide, signs⟩
  next => cases found

/-- The digits before an exponent, with the fraction, if there is one. -/
theorem mantissa_passes (starts : StartsNumber c.rest) :
    ∃ (whole : List Char) (fraction : Option (List Char)),
      c.Passes (whole ++ fraction.elim [] ('.' :: ·)) (skipFraction (digits 10 c)) ∧
      (∀ ch ∈ whole ++ fraction.getD [], ch = '_' ∨ DigitOf 10 ch) ∧
      ∃ ch ∈ whole ++ fraction.getD [], DigitOf 10 ch := by
  rcases starts with digit | ⟨tail, here, digit⟩
  · have passes := digits_passes 10 c
    obtain ⟨ch, member, isDigit⟩ := exists_digit digit
    unfold skipFraction
    split
    next point =>
      have dotted := (Cursor.passes_skip_of_rest ['.'] point).trans (digits_passes 10 _)
      exact ⟨_, some _, passes.trans dotted, List.forall_mem_append.mpr ⟨digits_only, digits_only⟩,
        ch, List.mem_append_left _ member, isDigit⟩
    next => exact ⟨_, none, by simpa using passes, by simpa using digits_only, ch, by simpa using member, isDigit⟩
  · have still : digits 10 c = c := Cursor.skipWhile_of_refused here (by decide)
    have point := Cursor.passes_skip_of_rest ['.'] here
    have after : (c.skip 1).rest = tail := by
      have rest := point.1
      rw [here] at rest
      exact (List.cons.inj rest).2.symm
    rw [still]
    unfold skipFraction
    split
    next => exact ⟨[], some _, point.trans (digits_passes 10 _), digits_only, exists_digit (after ▸ digit)⟩
    next other => exact absurd here (other tail)

/-- What is passed as a number is the text of a numeral, with runs that are filled and a mantissa with a digit. -/
theorem numeral_passes (starts : StartsNumber c.rest) (found : numeral c = .ok d) :
    ∃ n : Numeral, c.Passes n.text d ∧ n.Lettered ∧ (∀ r ∈ n.required, r.Filled) ∧ ∀ r ∈ n.mantissa, r.HasDigit := by
  unfold numeral at found
  cases announces : radixOf? c.rest with
  | some radix =>
    simp only [announces] at found
    obtain ⟨letter, passes, lettered⟩ := radixOf?_passes announces
    obtain ⟨run, further, filled⟩ := announced_passes found
    refine ⟨.radix letter ⟨radix, run⟩, passes.trans further, lettered, ?_, List.forall_mem_nil _⟩
    exact List.forall_mem_singleton.mpr filled
  | none =>
    simp only [announces] at found
    obtain ⟨whole, fraction, passes, only, digit⟩ := mantissa_passes starts
    obtain ⟨ch, member, -⟩ := id digit
    have filled : (⟨10, whole ++ fraction.getD []⟩ : Run).Filled := ⟨List.ne_nil_of_mem member, only⟩
    have hasDigit : (⟨10, whole ++ fraction.getD []⟩ : Run).HasDigit := digit
    cases exponent : exponentStart? (skipFraction (digits 10 c)) with
    | none =>
      simp only [exponent, Except.ok.injEq] at found
      obtain rfl := found
      refine ⟨.decimal whole fraction none, ?_, ?_, ?_, List.forall_mem_singleton.mpr hasDigit⟩
      · simpa [Numeral.text] using passes
      · simp [Numeral.Lettered]
      · exact List.forall_mem_singleton.mpr filled
    | some start =>
      simp only [exponent] at found
      obtain ⟨letter, sign, announces, lower, signs⟩ := exponentStart?_passes exponent
      obtain ⟨run, further, filledRun⟩ := announced_passes found
      refine ⟨.decimal whole fraction (some ⟨letter, sign, run⟩), ?_, ?_, ?_, List.forall_mem_singleton.mpr hasDigit⟩
      · simpa [Numeral.text, Exponent.text] using passes.trans (announces.trans further)
      · simpa [Numeral.Lettered, lower] using signs
      · exact List.forall_mem_cons.mpr ⟨filled, List.forall_mem_singleton.mpr filledRun⟩

theorem lexeme_number {expecting : Expecting} (found : lexeme expecting c = .ok (kind, d))
    (numeric : kind = .number ∨ kind = .bigInt) : StartsNumber c.rest ∧ number c = .ok (kind, d) := by
  have scanned := lexeme_cases found
  rcases numeric with rfl | rfl
  · cases scanned with
    | number starts found => exact ⟨starts, found⟩
  · cases scanned with
    | bigInt starts found => exact ⟨starts, found⟩

/-- The text of a number token is that of a numeral, of which every run that the grammar requires is there. All of
them hold a digit exactly if no run after the letter of a radix, or after an exponent letter and its sign, consists
of separators. No character of a name follows the token. -/
theorem number_has_digits {expecting : Expecting} (read : token expecting c = .ok (t, d))
    (numeric : t.kind = .number ∨ t.kind = .bigInt) :
    (∃ n : Numeral, t.text.toList = n.text ++ (if t.kind = .bigInt then ['n'] else []) ∧ n.Lettered ∧
      (∀ r ∈ n.required, r.Filled) ∧
      ((∀ r ∈ n.required, r.HasDigit) ↔ ∀ r ∈ n.announced, ∃ ch ∈ r.text, ch ≠ '_')) ∧
    ∀ ch tail, d.rest = ch :: tail → Text.isIdContinue ch = false := by
  obtain ⟨seen, start, kind, -, found, rfl⟩ := token_eq_ok_iff.mp read
  obtain ⟨starts, found⟩ := lexeme_number found numeric
  obtain ⟨e, before, same, ends⟩ := number_eq_ok_iff.mp found
  obtain ⟨n, passes, lettered, filled, digit⟩ := numeral_passes starts before
  have suffix := numberEnd_passes e
  rw [same] at suffix
  refine ⟨⟨n, ?_, lettered, filled, ?_⟩, ends⟩
  · rw [tokenAt, String.toList_ofList, Cursor.upTo_of_passes (passes.trans suffix)]
  · rw [Numeral.required, List.forall_mem_append] at *
    constructor
    · rintro ⟨-, announced⟩ r member
      exact (filled.2 r member).hasDigit_iff.mp (announced r member)
    · intro some
      exact ⟨digit, fun r member => (filled.2 r member).hasDigit_iff.mpr (some r member)⟩

/-- A decimal with all its parts, and a big integer in the radix two. -/
theorem number_has_digits_everywhere :
    let s : Token := ⟨.number, ⟨0, 8⟩, "1_0.5e-3", false, none⟩
    let b : Token := ⟨.bigInt, ⟨0, 6⟩, "0B1_0n", false, none⟩
    token .operand ⟨0, "1_0.5e-3;".toList⟩ = .ok (s, ⟨8, [';']⟩) ∧
    token .operand ⟨0, "0B1_0n".toList⟩ = .ok (b, ⟨6, []⟩) ∧
    ((∃ n : Numeral, s.text.toList = n.text ++ [] ∧ n.Lettered ∧ (∀ r ∈ n.required, r.Filled) ∧
        ((∀ r ∈ n.required, r.HasDigit) ↔ ∀ r ∈ n.announced, ∃ ch ∈ r.text, ch ≠ '_')) ∧
      ∀ ch tail, [';'] = ch :: tail → Text.isIdContinue ch = false) ∧
    ((∃ n : Numeral, b.text.toList = n.text ++ ['n'] ∧ n.Lettered ∧ (∀ r ∈ n.required, r.Filled) ∧
        ((∀ r ∈ n.required, r.HasDigit) ↔ ∀ r ∈ n.announced, ∃ ch ∈ r.text, ch ≠ '_')) ∧
      ∀ ch tail, [] = ch :: tail → Text.isIdContinue ch = false) := by
  intro s b
  have decimal : token .operand ⟨0, "1_0.5e-3;".toList⟩ = .ok (s, ⟨8, [';']⟩) := by
    simp only [s]
    cbv
  have binary : token .operand ⟨0, "0B1_0n".toList⟩ = .ok (b, ⟨6, []⟩) := by
    simp only [b]
    cbv
  exact ⟨decimal, binary, number_has_digits decimal (.inl rfl), number_has_digits binary (.inr rfl)⟩

/-- After the letter of a radix and after that of an exponent, separators are accepted in the place of digits. -/
theorem number_of_separators :
    let t (text : String) : Token := ⟨.number, ⟨0, 3⟩, text, false, none⟩
    let hex : Numeral := .radix 'x' ⟨16, ['_']⟩
    let power : Numeral := .decimal ['1'] none (some ⟨'e', [], ['_']⟩)
    tokens .operand "0x_".toList = ⟨[t "0x_", ⟨.eof, ⟨3, 3⟩, "", false, none⟩], none, 3⟩ ∧
      tokens .operand "1e_".toList = ⟨[t "1e_", ⟨.eof, ⟨3, 3⟩, "", false, none⟩], none, 3⟩ ∧
      "0x_".toList = hex.text ∧ hex.Lettered ∧ (∃ r ∈ hex.required, ¬ r.HasDigit) ∧
      "1e_".toList = power.text ∧ power.Lettered ∧ (∃ r ∈ power.required, ¬ r.HasDigit) ∧
      token .operand ⟨0, "0x".toList⟩ = fail .malformedNumber 0 2 ∧
      token .operand ⟨0, "1e".toList⟩ = fail .malformedNumber 0 2 := by
  intro t hex power
  have lacks : ∀ radix, ¬ (⟨radix, ['_']⟩ : Run).HasDigit := by
    rintro radix ⟨ch, member, v, -, value⟩
    rw [List.mem_singleton.mp member] at value
    cases value
  refine ⟨by cbv, by cbv, rfl, ?_, ⟨_, List.mem_cons_self, lacks 16⟩, rfl, ?_, ?_, by cbv, by cbv⟩
  · show ('x'.toLower, 16) ∈ [('x', 16), ('o', 8), ('b', 2)]
    decide
  · rintro e ⟨⟩
    decide
  · exact ⟨⟨10, ['_']⟩, by simp [Numeral.required, Numeral.mantissa, Numeral.announced, power], lacks 10⟩

end
end NameAudit.Scan
