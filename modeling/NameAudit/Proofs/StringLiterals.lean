import Mathlib.Data.List.Forall2
import Mathlib.Data.Nat.Digits.Defs
import Mathlib.Tactic.Ring
import NameAudit.Proofs.LongerTexts
import NameAudit.Proofs.TokenStream

/-!
The ways to write a string between quotes (`Rendering`). Each character is written raw or as one of its
escapes, and an escaped line break stands for nothing. The scanner passes each piece (`Skipped`) and the
decoder reads it back (`Decodes`), whatever comes after it, so that both compose over a whole literal
(`tokens_of_rendering`).
-/
namespace NameAudit.StringText

open Text (byteLength)

/-! ### Renderings -/

/-- A digit in base 16, with letters of either case. -/
def IsDigit (c : Char) (v : Nat) : Prop :=
  v < 16 ∧ (c = Nat.digitChar v ∨ c = (Nat.digitChar v).toUpper)

/-- Digits that write a number in base 16, the most significant one first. -/
def Spells (digits : List Char) (n : Nat) : Prop :=
  digits ≠ [] ∧ ∃ values, List.Forall₂ IsDigit digits values ∧ Nat.ofDigits 16 values.reverse = n

/-- The characters with an escape of a single letter. -/
def letterEscapes : List (Char × Char) :=
  [('n', '\n'), ('r', '\r'), ('t', '\t'), ('b', '\x08'), ('f', '\x0c'), ('v', '\x0b')]

/-- The line breaks that a backslash can hide. -/
def lineBreaks : List (List Char) := [['\n'], ['\r', '\n'], ['\u2028'], ['\u2029']]

/-- A text that stands for one character in a string between quotes. -/
inductive Writes (quote : Char) : Char → List Char → Prop
  | raw {ch : Char} (other : ch ≠ quote) (plain : ch ∉ ['\\', '\n', '\r']) : Writes quote ch [ch]
  | letter {ch e : Char} (named : (e, ch) ∈ letterEscapes) : Writes quote ch ['\\', e]
  | itself {ch : Char} (special : ch ∈ ['\x27', '\x22', '\\']) : Writes quote ch ['\\', ch]
  /-- Two digits, for a character up to U+00FF. -/
  | byte {ch : Char} {digits : List Char} (two : digits.length = 2) (spelled : Spells digits ch.toNat) :
    Writes quote ch ('\\' :: 'x' :: digits)
  /-- Four digits, for a character up to U+FFFF. -/
  | unit {ch : Char} {digits : List Char} (four : digits.length = 4) (spelled : Spells digits ch.toNat) :
    Writes quote ch ('\\' :: 'u' :: digits)
  | braces {ch : Char} {digits : List Char} (spelled : Spells digits ch.toNat) :
    Writes quote ch ('\\' :: 'u' :: '\x7b' :: (digits ++ ['\x7d']))
  /-- Two surrogates, for a character above U+FFFF. -/
  | pair {ch : Char} {high low : List Char} (above : 0xffff < ch.toNat) (fourHigh : high.length = 4)
    (fourLow : low.length = 4) (spelledHigh : Spells high (0xd800 + (ch.toNat - 0x10000) / 0x400))
    (spelledLow : Spells low (0xdc00 + (ch.toNat - 0x10000) % 0x400)) :
    Writes quote ch ('\\' :: 'u' :: high ++ '\\' :: 'u' :: low)

/-- A text that stands for a string between quotes. -/
inductive Rendering (quote : Char) : List Char → List Char → Prop
  | done : Rendering quote [] []
  | char {ch : Char} {written s text : List Char} (writes : Writes quote ch written)
    (later : Rendering quote s text) : Rendering quote (ch :: s) (written ++ text)
  /-- An escaped line break stands for nothing. -/
  | continuation {line s text : List Char} (breaks : line ∈ lineBreaks)
    (later : Rendering quote s text) : Rendering quote s ('\\' :: line ++ text)

/-! ### Digits -/

theorem IsDigit.hexDigit? {c : Char} {v : Nat} (digit : IsDigit c v) : Escape.hexDigit? c = some v := by
  obtain ⟨small, same⟩ := digit
  have table : ∀ v < 16, Escape.hexDigit? (Nat.digitChar v) = some v ∧
      Escape.hexDigit? (Nat.digitChar v).toUpper = some v := by decide
  rcases same with rfl | rfl
  · exact (table v small).1
  · exact (table v small).2

theorem hexFrom_of_values {digits : List Char} {values : List Nat} (start : Nat)
    (each : List.Forall₂ IsDigit digits values) :
    Escape.hexFrom start digits =
      some (start * 16 ^ values.length + Nat.ofDigits 16 values.reverse) := by
  induction each generalizing start with
  | nil => simp [Escape.hexFrom]
  | @cons c v digits values digit _ ih =>
    rw [Escape.hexFrom, digit.hexDigit?]
    dsimp only
    rw [ih, List.reverse_cons, Nat.ofDigits_append, List.length_reverse, List.length_cons,
      Nat.ofDigits_singleton]
    congr 1
    ring

section
variable {digits : List Char} {n : Nat}

theorem Spells.hexFrom (spelled : Spells digits n) : Escape.hexFrom 0 digits = some n := by
  obtain ⟨-, values, each, value⟩ := spelled
  rw [hexFrom_of_values 0 each, value, Nat.zero_mul, Nat.zero_add]

theorem Spells.hex? (spelled : Spells digits n) : Escape.hex? digits = some n := by
  rw [Escape.hex?, if_neg (by simpa using spelled.1), spelled.hexFrom]

theorem Spells.hexRun? (spelled : Spells digits n) (rest : List Char) :
    Escape.hexRun? digits.length (digits ++ rest) = some n := by
  rw [Escape.hexRun?, List.take_left, if_pos rfl, spelled.hex?]

/-- No digit is a backslash, a quote, a line break or a brace. -/
theorem Spells.plain (spelled : Spells digits n) {c : Char} (member : c ∈ digits) :
    c ∉ ['\\', '\n', '\r', '\x27', '\x22', '\x7b', '\x7d'] := by
  have digit := Scan.hexFrom_digits spelled.hexFrom c member
  intro other
  have nothing : (Escape.hexDigit? c).isSome = false := by
    simp only [List.mem_cons, List.not_mem_nil, or_false] at other
    rcases other with rfl | rfl | rfl | rfl | rfl | rfl | rfl <;> rfl
  rw [nothing] at digit
  cases digit

/-- The number of an escape with four digits. -/
theorem Spells.codeUnit? (spelled : Spells digits n) (four : digits.length = 4) (rest : List Char) :
    Escape.codeUnit? (digits ++ rest) = some (n, 4) := by
  have run := spelled.hexRun? rest
  rw [four] at run
  rw [Scan.codeUnit?_digits, run, Option.map_some]
  obtain ⟨c, others, rfl⟩ := List.exists_cons_of_ne_nil spelled.1
  intro brace
  obtain rfl : c = '\x7b' := Option.some.inj brace
  exact spelled.plain List.mem_cons_self (by decide)

/-- The number of an escape in braces. -/
theorem Spells.codeUnit?_braces (spelled : Spells digits n) (small : n ≤ 0x10ffff) (rest : List Char) :
    Escape.codeUnit? ('\x7b' :: (digits ++ '\x7d' :: rest)) = some (n, digits.length + 2) := by
  have inner : (digits ++ '\x7d' :: rest).takeWhile (· != '\x7d') = digits := by
    rw [List.takeWhile_append_of_pos, List.takeWhile_cons_of_neg (by decide), List.append_nil]
    intro c member
    have := spelled.plain member
    simp only [List.mem_cons, not_or] at this
    simpa using this.2.2.2.2.2.2.1
  rw [Scan.codeUnit?_brace]
  dsimp only
  rw [inner, if_pos (by simp), spelled.hex?]
  dsimp only
  rw [if_pos small]

end

/-! ### What the scanner passes -/

/-- The scanner passes the text inside a string. -/
def Skipped (quote : Char) (text : List Char) : Prop :=
  ∀ offset rest, Scan.closeString quote offset (text ++ rest) =
    Scan.closeString quote (offset + byteLength text) rest

section
variable {quote : Char} {text more : List Char}

theorem Skipped.nil : Skipped quote [] := fun _ _ => rfl

theorem Skipped.append (first : Skipped quote text) (second : Skipped quote more) :
    Skipped quote (text ++ more) := by
  intro offset rest
  rw [List.append_assoc, first, second, Text.byteLength_append, Nat.add_assoc]

theorem skipped_plain (plain : ∀ c ∈ text, c ≠ '\\' ∧ c ≠ quote ∧ c ≠ '\n') : Skipped quote text := by
  induction text with
  | nil => exact .nil
  | cons c text ih =>
    obtain ⟨raw, other, stays⟩ := plain c List.mem_cons_self
    have first : Skipped quote [c] := by
      intro offset rest
      rw [List.singleton_append, Scan.closeString_cons raw, if_neg other, if_neg stays]
      rfl
    exact first.append (ih fun c member => plain c (List.mem_cons_of_mem _ member))

/-- A backslash hides the character after it. -/
theorem skipped_escape {e : Char} (other : e ≠ '\r') : Skipped quote ['\\', e] := by
  intro offset rest
  simp only [List.cons_append, List.nil_append]
  rw [Scan.closeString]
  · rw [byteLength, byteLength, byteLength, Nat.add_zero, Nat.add_assoc]
    rfl
  · rintro tail rfl
    exact absurd rfl other

theorem skipped_crlf : Skipped quote ['\\', '\r', '\n'] := by
  intro offset rest
  simp only [List.cons_append, List.nil_append]
  rw [Scan.closeString]
  rfl

theorem skipped_digits (quotes : quote ∈ ['\x27', '\x22']) {digits : List Char} {n : Nat}
    (spelled : Spells digits n) : Skipped quote digits := by
  refine skipped_plain fun c member => ?_
  have plain := spelled.plain member
  refine ⟨?_, ?_, ?_⟩
  · rintro rfl
    exact plain (by decide)
  · rintro rfl
    revert plain
    simp only [List.mem_cons, List.not_mem_nil, or_false] at quotes
    rcases quotes with rfl | rfl <;> decide
  · rintro rfl
    exact plain (by decide)

end

theorem Writes.skipped {quote ch : Char} {text : List Char} (quotes : quote ∈ ['\x27', '\x22'])
    (writes : Writes quote ch text) : Skipped quote text := by
  cases writes with
  | raw other plain =>
    simp only [List.mem_cons, List.not_mem_nil, or_false, not_or] at plain
    refine skipped_plain fun c member => ?_
    obtain rfl := List.mem_singleton.mp member
    exact ⟨plain.1, other, plain.2.1⟩
  | letter named =>
    refine skipped_escape ?_
    rintro rfl
    revert named
    simp [letterEscapes]
  | itself special =>
    refine skipped_escape ?_
    rintro rfl
    revert special
    decide
  | byte two spelled => exact (skipped_escape (by decide)).append (skipped_digits quotes spelled)
  | unit four spelled => exact (skipped_escape (by decide)).append (skipped_digits quotes spelled)
  | @braces digits spelled =>
    have brace : ∀ c ∈ ['\x7b', '\x7d'], Skipped quote [c] := by
      intro c either
      refine skipped_plain fun c' member => ?_
      obtain rfl := List.mem_singleton.mp member
      simp only [List.mem_cons, List.not_mem_nil, or_false] at quotes either
      rcases quotes with rfl | rfl <;> rcases either with rfl | rfl <;> decide
    have opened := (skipped_escape (e := 'u') (by decide)).append (brace '\x7b' (by decide))
    have closed := (skipped_digits quotes spelled).append (brace '\x7d' (by decide))
    exact opened.append closed
  | pair above fourHigh fourLow spelledHigh spelledLow =>
    have escaped : Skipped quote ['\\', 'u'] := skipped_escape (by decide)
    have first := escaped.append (skipped_digits quotes spelledHigh)
    have second := escaped.append (skipped_digits quotes spelledLow)
    exact first.append second

theorem Rendering.skipped {quote : Char} {s text : List Char} (quotes : quote ∈ ['\x27', '\x22'])
    (rendering : Rendering quote s text) : Skipped quote text := by
  induction rendering with
  | done => exact .nil
  | char writes _ ih => exact (writes.skipped quotes).append ih
  | @continuation line _ _ breaks _ ih =>
    have hidden : Skipped quote ('\\' :: line) := by
      simp only [lineBreaks, List.mem_cons, List.not_mem_nil, or_false] at breaks
      rcases breaks with rfl | rfl | rfl | rfl
      · exact skipped_escape (by decide)
      · exact skipped_crlf
      · exact skipped_escape (by decide)
      · exact skipped_escape (by decide)
    exact hidden.append ih

/-! ### What the decoder reads -/

/-- The decoder reads some characters off a text, whatever comes after it. -/
def Decodes (text chars : List Char) : Prop :=
  ∀ rest, Escape.stringBody? (text ++ rest) = (Escape.stringBody? rest).map (chars ++ ·)

section
variable {text more chars later : List Char}

theorem Decodes.nil : Decodes [] [] := fun _ => by simp

theorem Decodes.append (first : Decodes text chars) (second : Decodes more later) :
    Decodes (text ++ more) (chars ++ later) := by
  intro rest
  rw [List.append_assoc, first, second, Option.map_map]
  exact congrArg (Option.map · _) (funext fun cs => (List.append_assoc ..).symm)

theorem decodes_raw {ch : Char} (raw : ch ≠ '\\') : Decodes [ch] [ch] := by
  intro rest
  rw [List.singleton_append, Escape.stringBody?, if_neg raw]
  · rfl
  · intros
    contradiction

/-- What the escape of a character says is what the decoder reads. -/
theorem decodes_escape {e : Char} (tail : List Char) {c : Option Char}
    (escape : ∀ rest, Escape.stringEscape? e (tail ++ rest) = some (c, tail.length)) :
    Decodes ('\\' :: e :: tail) c.toList := by
  intro rest
  rw [List.cons_append, List.cons_append, Escape.stringBody?, escape]
  dsimp only
  rw [List.drop_left]

end

/-! ### The character of an escape -/

theorem valid (ch : Char) : ch.toNat < 0xd800 ∨ 0xdfff < ch.toNat ∧ ch.toNat < 0x110000 := ch.valid

theorem charOf?_toNat (ch : Char) : Escape.charOf? ch.toNat = some ch := by
  rw [Escape.charOf?, if_pos (show ch.toNat.isValidChar from ch.valid), Char.ofNat_toNat]

/-- A single escape stands for the character whose number it writes. -/
theorem stringCodePoint?_of_unit {ch : Char} {cs : List Char} {n : Nat}
    (unit : Escape.codeUnit? cs = some (ch.toNat, n)) : Escape.stringCodePoint? cs = some (ch, n) := by
  have single : Escape.isHighSurrogate ch.toNat = false := by
    have := valid ch
    simp only [Escape.isHighSurrogate, Bool.and_eq_false_iff, decide_eq_false_iff_not]
    omega
  rw [Escape.stringCodePoint?, unit]
  simp [single, charOf?_toNat]

theorem isHighSurrogate_add {n : Nat} (small : n < 0x400) : Escape.isHighSurrogate (0xd800 + n) = true := by
  rw [Escape.isHighSurrogate, Bool.and_eq_true, decide_eq_true_iff, decide_eq_true_iff]
  exact ⟨Nat.le_add_right _ _, Nat.add_lt_add_left small _⟩

theorem isLowSurrogate_add {n : Nat} (small : n < 0x400) : Escape.isLowSurrogate (0xdc00 + n) = true := by
  rw [Escape.isLowSurrogate, Bool.and_eq_true, decide_eq_true_iff, decide_eq_true_iff]
  exact ⟨Nat.le_add_right _ _, Nat.add_lt_add_left small _⟩

theorem pairValue_add (high low : Nat) :
    Escape.pairValue (0xd800 + high) (0xdc00 + low) = 0x10000 + high * 0x400 + low := by
  unfold Escape.pairValue
  omega

/-- Two escapes with the surrogates of a character stand for it. -/
theorem stringCodePoint?_of_pair {ch : Char} {first second : Nat} {high low : List Char}
    (fourHigh : high.length = 4) (fourLow : low.length = 4) (spelledHigh : Spells high first)
    (spelledLow : Spells low second) (isHigh : Escape.isHighSurrogate first = true)
    (isLow : Escape.isLowSurrogate second = true) (value : Escape.pairValue first second = ch.toNat)
    (rest : List Char) :
    Escape.stringCodePoint? (high ++ ('\\' :: 'u' :: (low ++ rest))) = some (ch, 10) := by
  have half : Escape.lowHalf? ('\\' :: 'u' :: (low ++ rest)) = some (second, 6) := by
    simp only [Escape.lowHalf?, spelledLow.codeUnit? fourLow rest, isLow, if_true]
  have after : (high ++ ('\\' :: 'u' :: (low ++ rest))).drop 4 = '\\' :: 'u' :: (low ++ rest) := by
    rw [← fourHigh, List.drop_left]
  rw [Escape.stringCodePoint?, spelledHigh.codeUnit? fourHigh]
  simp only [isHigh, if_true, after, half, value, charOf?_toNat, Option.getD_some]

theorem stringEscape?_u (cs : List Char) :
    Escape.stringEscape? 'u' cs = (Escape.stringCodePoint? cs).map fun (c, n) => (some c, n) := by
  simp [Escape.stringEscape?]

theorem Writes.decodes {quote ch : Char} {text : List Char} (writes : Writes quote ch text) :
    Decodes text [ch] := by
  cases writes with
  | raw other plain =>
    refine decodes_raw ?_
    rintro rfl
    exact plain (by decide)
  | letter named =>
    refine decodes_escape [] (c := some ch) fun rest => ?_
    simp only [letterEscapes, List.mem_cons, List.not_mem_nil, or_false, Prod.mk.injEq] at named
    rcases named with ⟨rfl, rfl⟩ | ⟨rfl, rfl⟩ | ⟨rfl, rfl⟩ | ⟨rfl, rfl⟩ | ⟨rfl, rfl⟩ | ⟨rfl, rfl⟩ <;>
      simp [Escape.stringEscape?]
  | itself special =>
    refine decodes_escape [] (c := some ch) fun rest => ?_
    simp only [List.mem_cons, List.not_mem_nil, or_false] at special
    rcases special with rfl | rfl | rfl <;> simp [Escape.stringEscape?, Escape.isOctal]
  | byte two spelled =>
    refine decodes_escape _ (c := some ch) fun rest => ?_
    have run := spelled.hexRun? rest
    rw [two] at run
    simp [Escape.stringEscape?, run, two]
  | unit four spelled =>
    refine decodes_escape _ (c := some ch) fun rest => ?_
    rw [stringEscape?_u, stringCodePoint?_of_unit (spelled.codeUnit? four rest), four, Option.map_some]
  | @braces digits spelled =>
    refine decodes_escape ('\x7b' :: (digits ++ ['\x7d'])) (c := some ch) fun rest => ?_
    have small : ch.toNat ≤ 0x10ffff := by
      have := valid ch
      omega
    have unit := spelled.codeUnit?_braces small rest
    rw [stringEscape?_u, List.cons_append, List.append_assoc, List.singleton_append,
      stringCodePoint?_of_unit unit, Option.map_some]
    simp
  | @pair high low above fourHigh fourLow spelledHigh spelledLow =>
    refine decodes_escape (high ++ '\\' :: 'u' :: low) (c := some ch) fun rest => ?_
    have whole := valid ch
    have isHigh := isHighSurrogate_add (n := (ch.toNat - 0x10000) / 0x400) (by omega)
    have isLow := isLowSurrogate_add (n := (ch.toNat - 0x10000) % 0x400) (by omega)
    have value := pairValue_add ((ch.toNat - 0x10000) / 0x400) ((ch.toNat - 0x10000) % 0x400)
    rw [show 0x10000 + (ch.toNat - 0x10000) / 0x400 * 0x400 + (ch.toNat - 0x10000) % 0x400 = ch.toNat by
      omega] at value
    rw [stringEscape?_u, List.append_assoc, List.cons_append, List.cons_append,
      stringCodePoint?_of_pair fourHigh fourLow spelledHigh spelledLow isHigh isLow value, Option.map_some]
    simp [fourHigh, fourLow]

theorem Rendering.decodes {quote : Char} {s text : List Char} (rendering : Rendering quote s text) :
    Decodes text s := by
  induction rendering with
  | done => exact .nil
  | char writes _ ih => exact writes.decodes.append ih
  | @continuation line _ _ breaks _ ih =>
    have hidden : Decodes ('\\' :: line) [] := by
      simp only [lineBreaks, List.mem_cons, List.not_mem_nil, or_false] at breaks
      rcases breaks with rfl | rfl | rfl | rfl <;>
        exact decodes_escape _ (c := none) fun rest => by simp [Escape.stringEscape?]
    exact hidden.append ih

/-! ### Whole literals -/

theorem stringLiteral?_of_decodes {quote : Char} {s text : List Char} (quotes : quote ∈ ['\x27', '\x22'])
    (decodes : Decodes text s) : Escape.stringLiteral? (quote :: (text ++ [quote])) = some s := by
  have narrow : quote.utf8Size = 1 := by
    simp only [List.mem_cons, List.not_mem_nil, or_false] at quotes
    rcases quotes with rfl | rfl <;> rfl
  have whole := decodes []
  rw [List.append_nil, Escape.stringBody?] at whole
  rw [Escape.stringLiteral?, List.getLast?_concat]
  simp [narrow, whole]

theorem lexeme_of_skipped (expecting : Scan.Expecting) {quote : Char} {text : List Char}
    (quotes : quote ∈ ['\x27', '\x22']) (skipped : Skipped quote text) :
    Scan.lexeme expecting ⟨0, quote :: (text ++ [quote])⟩ =
      .ok (.string, ⟨byteLength (quote :: (text ++ [quote])), []⟩) := by
  obtain ⟨opens, raw⟩ : (∀ c, Scan.lexeme expecting ⟨0, quote :: c⟩ = Scan.string ⟨0, quote :: c⟩) ∧
      quote ≠ '\\' := by
    simp only [List.mem_cons, List.not_mem_nil, or_false] at quotes
    rcases quotes with rfl | rfl
    · exact ⟨fun _ => rfl, by decide⟩
    · exact ⟨fun _ => rfl, by decide⟩
  rw [opens, Scan.string]
  simp only [skipped _ [quote], Scan.closeString_cons raw, if_true, byteLength, Text.byteLength_append,
    Nat.zero_add, Nat.add_zero, Nat.add_assoc]

/-- Every way to write a string between quotes is one token, of which the decoder gives the string. -/
theorem tokens_of_rendering (expecting : Scan.Expecting) {quote : Char} {s text : List Char}
    (quotes : quote ∈ ['\x27', '\x22']) (rendering : Rendering quote s text) :
    let literal := quote :: (text ++ [quote])
    let stop := byteLength literal
    Scan.tokens expecting literal =
        ⟨[⟨.string, ⟨0, stop⟩, String.ofList literal, false, none⟩,
          ⟨.eof, ⟨stop, stop⟩, "", false, none⟩], none, stop⟩ ∧
      Escape.stringLiteral? literal = some s := by
  intro literal stop
  refine ⟨?_, stringLiteral?_of_decodes quotes rendering.decodes⟩
  have begins : Scan.trivia {} ⟨0, literal⟩ = .ok ({}, ⟨0, literal⟩) := by
    rw [Scan.trivia_char {} rfl]
    · simp only [List.mem_cons, List.not_mem_nil, or_false] at quotes
      rcases quotes with rfl | rfl <;> rfl
    · rintro rfl
      exact absurd quotes (by decide)
  have string : Scan.token expecting ⟨0, literal⟩ =
      .ok (⟨.string, ⟨0, stop⟩, String.ofList literal, false, none⟩, ⟨stop, []⟩) := by
    refine Scan.token_eq_ok_iff.mpr
      ⟨{}, _, _, begins, lexeme_of_skipped expecting quotes (rendering.skipped quotes), ?_⟩
    have passes : Cursor.Passes ⟨0, literal⟩ literal ⟨stop, []⟩ :=
      ⟨(List.append_nil _).symm, (Nat.zero_add _).symm⟩
    rw [Scan.tokenAt, Cursor.upTo_of_passes passes]
    rfl
  have ended : Scan.token expecting ⟨stop, []⟩ = .ok (⟨.eof, ⟨stop, stop⟩, "", false, none⟩, ⟨stop, []⟩) := by
    have nothing : Scan.trivia {} ⟨stop, []⟩ = .ok ({}, ⟨stop, []⟩) := by
      rw [Scan.trivia]
    exact Scan.token_eq_ok_iff.mpr ⟨{}, _, _, nothing, Scan.lexeme_of_nil rfl, rfl⟩
  have twice : literal.length + 1 = text.length + 1 + 1 + 1 := by simp [literal]
  rw [Scan.tokens, twice, Scan.tokensWithin, Cursor.ofSource, string]
  dsimp only
  rw [if_neg (by decide), Scan.tokensWithin, ended]
  dsimp only
  rw [if_pos rfl]

/-- A string of two characters, one written as two surrogates and the other one as a quote with a
backslash after a hidden line break. -/
theorem tokens_of_surrogates_and_quote :
    let text := "\\uD83d\\uDE00\\\r\n\\\x27".toList
    let literal := '\x27' :: (text ++ ['\x27'])
    Rendering '\x27' [Char.ofNat 0x1f600, '\x27'] text ∧
      Scan.tokens .operand literal =
        ⟨[⟨.string, ⟨0, 19⟩, String.ofList literal, false, none⟩, ⟨.eof, ⟨19, 19⟩, "", false, none⟩], none, 19⟩ ∧
      Escape.stringLiteral? literal = some [Char.ofNat 0x1f600, '\x27'] := by
  intro text literal
  have high : Spells ['D', '8', '3', 'd'] 0xd83d :=
    ⟨List.cons_ne_nil _ _, [13, 8, 3, 13], by simp [IsDigit, Nat.digitChar], by decide⟩
  have low : Spells ['D', 'E', '0', '0'] 0xde00 :=
    ⟨List.cons_ne_nil _ _, [13, 14, 0, 0], by simp [IsDigit, Nat.digitChar], by decide⟩
  have pair : Writes '\x27' (Char.ofNat 0x1f600) "\\uD83d\\uDE00".toList :=
    .pair (by decide) (show ['D', '8', '3', 'd'].length = 4 from rfl)
      (show ['D', 'E', '0', '0'].length = 4 from rfl) high low
  have quoted : Writes '\x27' '\x27' ['\\', '\x27'] := .itself (by decide)
  have rendering : Rendering '\x27' [Char.ofNat 0x1f600, '\x27'] text :=
    .char pair (.continuation (show ['\r', '\n'] ∈ lineBreaks by decide) (.char quoted .done))
  exact ⟨rendering, tokens_of_rendering .operand (by decide) rendering⟩

end NameAudit.StringText
