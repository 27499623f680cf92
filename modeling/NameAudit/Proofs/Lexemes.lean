import NameAudit.Proofs.Cursors
import NameAudit.Token.Scan
import Mathlib.Tactic.SplitIfs

/-!
How far each scan of a token goes. A scan that succeeds stands at a character that it reached by
passing whole characters, and one that fails gives an error between two such places (`Lands`). What
closes a string, a regular expression, a template or a comment is told by the text up to there alone, so
it does not matter what follows.
-/
namespace NameAudit

open Cursor (Passes Reaches Boundary)

namespace Scan

/-! ### Texts that are closed -/

section
variable {offset stop : Nat} {cs after : List Char} {d : Cursor}

theorem closeComment_passes (found : closeComment offset cs = some d) :
    ∃ text, Passes ⟨offset, cs⟩ text d ∧
      ∀ after, closeComment offset (text ++ after) = some ⟨d.offset, after⟩ := by
  fun_induction closeComment offset cs with
  | case1 => cases found
  | case2 offset cs =>
    cases found
    exact ⟨['*', '/'], ⟨rfl, rfl⟩, fun after => rfl⟩
  | case3 offset c cs other ih =>
    obtain ⟨text, passes, again⟩ := ih found
    refine ⟨c :: text, passes.cons, fun after => ?_⟩
    rw [List.cons_append, closeComment, again]
    intro tail star slash
    -- The two characters that close a comment are both in the text, or there was nothing to close.
    cases text with
    | nil => cases again []
    | cons first text =>
      obtain ⟨rfl, rfl⟩ := List.cons_eq_cons.mp slash
      exact other _ star passes.1

variable {quote c : Char}

/-- A character that is the start of no escape is no backslash. -/
theorem ne_backslash (alone : c = '\\' → cs = [] → False) (escaped : ∀ e tail, c = '\\' → cs = e :: tail → False) :
    c ≠ '\\' := by
  rintro rfl
  cases cs with
  | nil => exact alone rfl rfl
  | cons e cs => exact escaped e cs rfl rfl

theorem closeString_cons (raw : c ≠ '\\') :
    closeString quote offset (c :: cs) =
      if c = quote then .ok ⟨offset + c.utf8Size, cs⟩
      else if c = '\n' then .error (offset + 1)
      else closeString quote (offset + c.utf8Size) cs := by
  rw [closeString] <;> intros <;> contradiction

theorem closeString_passes (found : closeString quote offset cs = .ok d) :
    ∃ text, Passes ⟨offset, cs⟩ text d ∧
      ∀ after, closeString quote offset (text ++ after) = .ok ⟨d.offset, after⟩ := by
  fun_induction closeString quote offset cs with
  | case1 => cases found
  | case2 => cases found
  | case3 offset cs ih =>
    obtain ⟨text, passes, again⟩ := ih found
    exact ⟨'\\' :: '\r' :: '\n' :: text, passes.cons.cons.cons, again⟩
  | case4 offset e cs other ih =>
    obtain ⟨text, passes, again⟩ := ih found
    refine ⟨'\\' :: e :: text, passes.cons.cons, fun after => ?_⟩
    rw [List.cons_append, List.cons_append, closeString, again]
    intro tail feed line
    cases text with
    | nil => cases again []
    | cons first text =>
      obtain ⟨rfl, rfl⟩ := List.cons_eq_cons.mp line
      exact other _ feed passes.1
  | case5 offset cs alone _ escaped =>
    cases found
    have raw := ne_backslash alone escaped
    refine ⟨[quote], ⟨rfl, rfl⟩, fun after => ?_⟩
    rw [List.singleton_append, closeString_cons raw, if_pos rfl]
  | case6 => cases found
  | case7 offset c cs alone _ escaped other line ih =>
    obtain ⟨text, passes, again⟩ := ih found
    have raw := ne_backslash alone escaped
    refine ⟨c :: text, passes.cons, fun after => ?_⟩
    rw [List.cons_append, closeString_cons raw, if_neg other, if_neg line, again]

theorem closeString_boundary (failed : closeString quote offset cs = .error stop) :
    Boundary ⟨offset, cs⟩ stop := by
  fun_induction closeString quote offset cs with
  | case1 =>
    cases failed
    exact .here _
  | case2 =>
    cases failed
    exact Boundary.cons (.here _)
  | case3 offset cs ih => exact (ih failed).cons.cons.cons
  | case4 offset e cs other ih => exact (ih failed).cons.cons
  | case5 => cases failed
  | case6 =>
    cases failed
    exact Boundary.cons (.here _)
  | case7 offset c cs _ _ _ other line ih => exact (ih failed).cons

theorem closeRegex_cons {inClass : Bool} (raw : c ≠ '\\') :
    closeRegex inClass offset (c :: cs) =
      if c = '[' then closeRegex true (offset + 1) cs
      else if c = ']' then closeRegex false (offset + 1) cs
      else if c = '/' ∧ inClass = false then .ok ⟨offset + 1, cs⟩
      else if Text.isLineTerminator c then .error (offset + c.utf8Size)
      else closeRegex inClass (offset + c.utf8Size) cs := by
  rw [closeRegex] <;> intros <;> contradiction

theorem closeRegex_passes {inClass : Bool} (found : closeRegex inClass offset cs = .ok d) :
    ∃ text, Passes ⟨offset, cs⟩ text d ∧
      ∀ after, closeRegex inClass offset (text ++ after) = .ok ⟨d.offset, after⟩ := by
  fun_induction closeRegex inClass offset cs with
  | case1 => cases found
  | case2 => cases found
  | case3 => cases found
  | case4 inClass offset e cs stays ih =>
    obtain ⟨text, passes, again⟩ := ih found
    refine ⟨'\\' :: e :: text, passes.cons.cons, fun after => ?_⟩
    rw [List.cons_append, List.cons_append, closeRegex, if_neg stays, again]
  | case5 inClass offset cs _ _ ih =>
    obtain ⟨text, passes, again⟩ := ih found
    refine ⟨'[' :: text, passes.cons, fun after => ?_⟩
    rw [List.cons_append, closeRegex_cons (by decide), if_pos rfl, again]
  | case6 inClass offset cs _ _ opens ih =>
    obtain ⟨text, passes, again⟩ := ih found
    refine ⟨']' :: text, passes.cons, fun after => ?_⟩
    rw [List.cons_append, closeRegex_cons (by decide), if_neg opens, if_pos rfl, again]
  | case7 inClass offset c cs _ _ opens closes ends =>
    cases found
    obtain ⟨rfl, rfl⟩ := ends
    refine ⟨['/'], ⟨rfl, rfl⟩, fun after => ?_⟩
    rw [List.singleton_append, closeRegex_cons (by decide), if_neg opens, if_neg closes,
      if_pos ⟨rfl, rfl⟩]
  | case8 => cases found
  | case9 inClass offset c cs alone escaped opens closes ends stays ih =>
    obtain ⟨text, passes, again⟩ := ih found
    have raw := ne_backslash alone escaped
    refine ⟨c :: text, passes.cons, fun after => ?_⟩
    rw [List.cons_append, closeRegex_cons raw, if_neg opens, if_neg closes, if_neg ends,
      if_neg stays, again]

theorem closeRegex_boundary {inClass : Bool} (failed : closeRegex inClass offset cs = .error stop) :
    Boundary ⟨offset, cs⟩ stop := by
  fun_induction closeRegex inClass offset cs with
  | case1 =>
    cases failed
    exact .here _
  | case2 =>
    cases failed
    exact Boundary.cons (.here _)
  | case3 =>
    cases failed
    exact Boundary.cons (Boundary.cons (.here _))
  | case4 inClass offset e cs stays ih => exact (ih failed).cons.cons
  | case5 inClass offset cs _ _ ih => exact (ih failed).cons
  | case6 inClass offset cs _ _ opens ih => exact (ih failed).cons
  | case7 => cases failed
  | case8 =>
    cases failed
    exact Boundary.cons (.here _)
  | case9 inClass offset c cs _ _ _ _ _ _ ih => exact (ih failed).cons

theorem closeTemplate_cons (raw : c ≠ '\\') (plain : ∀ tail, c = '$' → cs ≠ '\x7b' :: tail) :
    closeTemplate offset (c :: cs) =
      if c = '\x60' then .ok (.closed, ⟨offset + 1, cs⟩)
      else closeTemplate (offset + c.utf8Size) cs := by
  rw [closeTemplate]
  · intros; contradiction
  · intros; contradiction
  · exact plain

theorem closeTemplate_passes {stopsAt : TemplateEnd}
    (found : closeTemplate offset cs = .ok (stopsAt, d)) :
    ∃ text, Passes ⟨offset, cs⟩ text d ∧
      ∀ after, closeTemplate offset (text ++ after) = .ok (stopsAt, ⟨d.offset, after⟩) := by
  fun_induction closeTemplate offset cs with
  | case1 => cases found
  | case2 => cases found
  | case3 offset e cs ih =>
    obtain ⟨text, passes, again⟩ := ih found
    exact ⟨'\\' :: e :: text, passes.cons.cons, again⟩
  | case4 offset cs =>
    cases found
    exact ⟨['$', '\x7b'], ⟨rfl, rfl⟩, fun after => rfl⟩
  | case5 offset cs =>
    cases found
    refine ⟨['\x60'], ⟨rfl, rfl⟩, fun after => ?_⟩
    rw [List.singleton_append, closeTemplate_cons (by decide) fun _ same => absurd same (by decide),
      if_pos rfl]
  | case6 offset c cs alone escaped plain other ih =>
    obtain ⟨text, passes, again⟩ := ih found
    have raw := ne_backslash alone escaped
    refine ⟨c :: text, passes.cons, fun after => ?_⟩
    rw [List.cons_append, closeTemplate_cons raw, if_neg other, again]
    intro tail dollar brace
    cases text with
    | nil => cases again []
    | cons first text =>
      obtain ⟨rfl, rfl⟩ := List.cons_eq_cons.mp brace
      exact plain _ dollar passes.1

theorem closeTemplate_boundary (failed : closeTemplate offset cs = .error stop) :
    Boundary ⟨offset, cs⟩ stop := by
  fun_induction closeTemplate offset cs with
  | case1 =>
    cases failed
    exact .here _
  | case2 =>
    cases failed
    exact Boundary.cons (.here _)
  | case3 offset e cs ih => exact (ih failed).cons.cons
  | case4 => cases failed
  | case5 => cases failed
  | case6 offset c cs _ _ _ _ ih => exact (ih failed).cons

end

/-! ### Lexemes -/

/-- A scan from a position gives a position that is reached from a first stop, or an error between two
boundaries. -/
def Lands {α : Type} (c first : Cursor) : Except SyntaxError (α × Cursor) → Prop
  | .ok (_, d) => first.Reaches d
  | .error e => c.Boundary e.span.start ∧ c.Boundary e.span.stop

/-- The same for scans that tell no more than where digits are missing. -/
def LandsAt (c first : Cursor) : Except Nat Cursor → Prop
  | .ok d => first.Reaches d
  | .error stop => c.Boundary stop

section
variable {α : Type} {c d first : Cursor} {ch : Char} {cs : List Char}

theorem Lands.before {r : Except SyntaxError (α × Cursor)} (reaches : c.Reaches d)
    (lands : Lands d first r) : Lands c first r := by
  cases r with
  | ok found => exact lands
  | error e => exact ⟨lands.1.before reaches, lands.2.before reaches⟩

theorem Lands.after {r : Except SyntaxError (α × Cursor)} (lands : Lands c d r)
    (reaches : first.Reaches d) : Lands c first r := by
  cases r with
  | ok found => exact reaches.trans lands
  | error e => exact lands

/-- A scan that goes on from a stop. -/
theorem Lands.from {r : Except SyntaxError (α × Cursor)} (lands : Lands d d r)
    (start : c.Reaches first) (reaches : first.Reaches d) : Lands c first r :=
  (lands.after reaches).before (start.trans reaches)

/-- An error that begins where the scan does. -/
theorem Lands.fail {cause : SyntaxError.Cause} {stop : Nat} (boundary : c.Boundary stop) :
    Lands c first (fail cause c.offset stop : Except SyntaxError (α × Cursor)) :=
  ⟨.here c, boundary⟩

theorem boundary_of_rest (passed : List Char) {rest : List Char} (here : c.rest = passed ++ rest) :
    c.Boundary (c.offset + Text.byteLength passed) :=
  ⟨⟨c.offset + Text.byteLength passed, rest⟩, ⟨passed, here, rfl⟩, rfl⟩

theorem name_lands (escaped : Bool) (c : Cursor) : Lands c c (name escaped c) := by
  fun_induction name escaped c with
  | case1 escaped c d cs escape ch n found ih =>
    exact ih.from (.refl c) ((Cursor.reaches_skipWhile _ _).trans (Cursor.reaches_skip _ _))
  | case2 escaped c d cs escape =>
    exact Lands.before (Cursor.reaches_skipWhile _ _)
      (.fail (boundary_of_rest ['\\', 'u'] escape))
  | case3 escaped c d other tail _ escape =>
    have boundary := boundary_of_rest ['\\', other] escape
    refine Lands.before (Cursor.reaches_skipWhile _ _) (.fail ?_)
    rwa [Nat.add_assoc]
  | case4 escaped c d escape =>
    exact Lands.before (Cursor.reaches_skipWhile _ _)
      (.fail (boundary_of_rest ['\\'] escape))
  | case5 escaped c d => exact Cursor.reaches_skipWhile _ _

/-- A name ends before a character that cannot continue it. -/
theorem name_stops {escaped read : Bool} (found : name escaped c = .ok (read, d))
    (here : d.rest = ch :: cs) : Text.isIdContinue ch = false ∧ ch ≠ '\\' := by
  fun_induction name escaped c with
  | case1 escaped c d' cs' escape ch' n decoded ih => exact ih found
  | case2 => cases found
  | case3 => cases found
  | case4 => cases found
  | case5 escaped c d' escape more alone =>
    obtain rfl : d' = d := congrArg Prod.snd (Except.ok.inj found)
    refine ⟨Cursor.refused_of_skipWhile here, ?_⟩
    rintro rfl
    cases cs with
    | nil => exact alone here
    | cons u cs => exact more u cs here

/-- A name goes on after its first character. -/
theorem name_lands_after (escaped : Bool) (here : c.rest = ch :: cs)
    (starts : Text.isIdContinue ch = true ∨ ch = '\\') :
    Lands c (c.skip 1) (name escaped c) := by
  have lands := name_lands escaped c
  cases found : name escaped c with
  | error e =>
    rw [found] at lands
    exact lands
  | ok read =>
    rw [found] at lands
    refine Reaches.after_first lands ?_
    intro still
    obtain ⟨refused, plain⟩ := name_stops found (still ▸ here)
    rcases starts with accepted | backslash
    · cases refused.symm.trans accepted
    · exact plain backslash

theorem word_lands (here : c.rest = ch :: cs)
    (starts : (Text.isIdStart ch || ch == '\\') = true) : Lands c (c.skip 1) (word c) := by
  have lands := name_lands_after false here <| by
    rcases Bool.or_eq_true_iff.mp starts with letter | backslash
    · exact .inl (Text.isIdContinue_of_isIdStart letter)
    · exact .inr (beq_iff_eq.mp backslash)
  unfold word
  cases found : name false c with
  | error e =>
    rw [found] at lands
    exact lands
  | ok read =>
    rw [found] at lands
    exact lands

theorem privateName_lands (c : Cursor) : Lands c (c.skip 1) (privateName c) := by
  have skips := Cursor.reaches_skip 1 c
  have lands := (name_lands false (c.skip 1)).before skips
  unfold privateName
  dsimp only
  split
  · split
    · cases found : name false (c.skip 1) with
      | error e =>
        rw [found] at lands
        exact lands
      | ok read =>
        rw [found] at lands
        exact lands
    · exact .fail (.of_reaches skips)
  · exact .fail (.of_reaches skips)

/-! ### Numbers -/

theorem digits_reaches (radix : Nat) (c : Cursor) : c.Reaches (digits radix c) :=
  Cursor.reaches_skipWhile _ _

theorem skipSign_reaches (c : Cursor) : c.Reaches (skipSign c) := by
  unfold skipSign
  split
  · exact Cursor.reaches_skip _ _
  · exact Cursor.reaches_skip _ _
  · exact .refl c

theorem skipFraction_reaches (c : Cursor) : c.Reaches (skipFraction c) := by
  unfold skipFraction
  split
  · exact (Cursor.reaches_skip 1 c).trans (digits_reaches _ _)
  · exact .refl c

theorem exponentStart?_reaches (found : exponentStart? c = some d) : c.Reaches d := by
  unfold exponentStart? at found
  split at found
  · obtain rfl := Option.some.inj found
    exact (Cursor.reaches_skip 1 c).trans (skipSign_reaches _)
  · obtain rfl := Option.some.inj found
    exact (Cursor.reaches_skip 1 c).trans (skipSign_reaches _)
  · cases found

theorem isDigitOf_of_isDigit (digit : ch.isDigit = true) : isDigitOf 10 ch = true := by
  have bounds : '0' ≤ ch ∧ ch ≤ '9' := by simpa [Char.isDigit, Char.le_def] using digit
  have below : ch.toNat ≤ 57 := bounds.2
  simp [isDigitOf, Escape.hexDigit?, bounds]
  omega

/-- The digits and the fraction of a number go on after its first character. -/
theorem mantissa_reaches (here : c.rest = ch :: cs)
    (starts : ch.isDigit = true ∨ ch = '.') :
    (c.skip 1).Reaches (skipFraction (digits 10 c)) := by
  rcases starts with digit | rfl
  · rw [digits, Cursor.skipWhile_of_accepted here (isDigitOf_of_isDigit digit)]
    exact (Cursor.reaches_skipWhile _ _).trans (skipFraction_reaches _)
  · rw [digits, Cursor.skipWhile_of_refused here (by decide), skipFraction]
    split
    · exact digits_reaches _ _
    next other => exact absurd here (other cs)

/-- Digits that have to be there. -/
theorem LandsAt.digits {start : Cursor} (reaches : c.Reaches start) (after : first.Reaches start)
    (radix : Nat) :
    LandsAt c first
      (if (digits radix start).offset = start.offset then .error (digits radix start).offset
        else .ok (digits radix start)) := by
  have stops := digits_reaches radix start
  split
  · exact .of_reaches (reaches.trans stops)
  · exact after.trans stops

theorem numeral_lands (here : c.rest = ch :: cs) (starts : ch.isDigit = true ∨ ch = '.') :
    LandsAt c (c.skip 1) (numeral c) := by
  have skips := Cursor.reaches_skip 1 c
  have mantissa := mantissa_reaches here starts
  unfold numeral
  cases radixOf? c.rest with
  | some radix => exact .digits (Cursor.reaches_skip 2 c) (Cursor.reaches_skip_add 1 1 c) radix
  | none =>
    dsimp only
    cases exponent : exponentStart? (skipFraction (digits 10 c)) with
    | none => exact mantissa
    | some start =>
      have after := mantissa.trans (exponentStart?_reaches exponent)
      exact .digits (skips.trans after) after 10

/-- The kind of a number whose digits end at a position, and the position after the `n` of a big
integer. -/
def numberEnd (c : Cursor) : TokenKind × Cursor :=
  match c.rest with
  | 'n' :: _ => (.bigInt, c.skip 1)
  | _ => (.number, c)

/-- A number from a position whose digits were read, where a name must not start. -/
def numberFrom (c : Cursor) (found : TokenKind × Cursor) :
    Except SyntaxError (TokenKind × Cursor) :=
  match found.2.rest with
  | ch :: _ =>
    if Text.isIdContinue ch then fail .malformedNumber c.offset found.2.offset else .ok found
  | [] => .ok found

theorem number_of_numeral (read : numeral c = .ok d) : number c = numberFrom c (numberEnd d) := by
  unfold number
  rw [read]
  rfl

/-- A number that is read ends before a character that continues no name. -/
theorem numberFrom_eq_ok_iff {found last : TokenKind × Cursor} : numberFrom c found = .ok last ↔
    found = last ∧ ∀ ch cs, last.2.rest = ch :: cs → Text.isIdContinue ch = false := by
  unfold numberFrom
  split
  next ch cs here =>
    by_cases goesOn : Text.isIdContinue ch = true
    · rw [if_pos goesOn]
      constructor
      · intro read
        cases read
      · rintro ⟨rfl, stops⟩
        rw [stops ch cs here] at goesOn
        cases goesOn
    · rw [if_neg goesOn, Except.ok.injEq]
      refine ⟨fun same => ⟨same, ?_⟩, fun read => read.1⟩
      rintro other others there
      rw [same] at here
      obtain ⟨rfl, -⟩ := List.cons.inj (here.symm.trans there)
      simpa using goesOn
  next nothing =>
    rw [Except.ok.injEq]
    refine ⟨fun same => ⟨same, ?_⟩, fun read => read.1⟩
    rintro other others there
    rw [same] at nothing
    cases nothing.symm.trans there

/-- A number is read up to the end of its digits and the `n` of a big integer. -/
theorem number_eq_ok_iff {last : TokenKind × Cursor} : number c = .ok last ↔
    ∃ d, numeral c = .ok d ∧ numberEnd d = last ∧
      ∀ ch cs, last.2.rest = ch :: cs → Text.isIdContinue ch = false := by
  cases read : numeral c with
  | error stop => simp [number, read, fail]
  | ok d => simp [number_of_numeral read, numberFrom_eq_ok_iff]

theorem numberEnd_passes (d : Cursor) :
    d.Passes (if (numberEnd d).1 = .bigInt then ['n'] else []) (numberEnd d).2 := by
  unfold numberEnd
  split
  next here => exact Cursor.passes_skip_of_rest ['n'] here
  next => exact .refl d

theorem number_lands (here : c.rest = ch :: cs) (starts : ch.isDigit = true ∨ ch = '.') :
    Lands c (c.skip 1) (number c) := by
  have lands := numeral_lands here starts
  cases found : numeral c with
  | error stop =>
    rw [found] at lands
    simp only [number, found]
    exact .fail lands
  | ok d =>
    rw [found] at lands
    have reaches := Reaches.trans lands ⟨_, numberEnd_passes d⟩
    rw [number_of_numeral found]
    unfold numberFrom
    split
    · split
      · exact .fail (.of_reaches ((Cursor.reaches_skip 1 c).trans reaches))
      · exact reaches
    · exact reaches

/-! ### Strings, regular expressions, templates and punctuators -/

theorem string_lands (c : Cursor) : Lands c (c.skip 1) (string c) := by
  obtain ⟨offset, rest⟩ := c
  cases rest with
  | nil => exact .fail (.here _)
  | cons quote cs =>
    simp only [string]
    cases found : closeString quote (offset + quote.utf8Size) cs with
    | ok d =>
      obtain ⟨text, passes, _⟩ := closeString_passes found
      exact ⟨text, passes⟩
    | error stop => exact .fail (closeString_boundary found).cons

theorem regex_lands (c : Cursor) : Lands c (c.skip 1) (regex c) := by
  have skips := Cursor.reaches_skip 1 c
  unfold regex
  cases found : closeRegex false (c.skip 1).offset (c.skip 1).rest with
  | ok d =>
    obtain ⟨text, passes, _⟩ := closeRegex_passes found
    simp only [found]
    exact Reaches.trans ⟨text, passes⟩ (Cursor.reaches_skipWhile _ _)
  | error stop =>
    simp only [found]
    exact .fail ((closeRegex_boundary found).before skips)

theorem template_lands (closed substitution : TokenKind) (c : Cursor) :
    Lands c (c.skip 1) (template closed substitution c) := by
  have skips := Cursor.reaches_skip 1 c
  unfold template
  cases found : closeTemplate (c.skip 1).offset (c.skip 1).rest with
  | ok read =>
    obtain ⟨stopsAt, d⟩ := read
    obtain ⟨text, passes, _⟩ := closeTemplate_passes found
    simp only [found]
    cases stopsAt with
    | closed => exact ⟨text, passes⟩
    | substitution => exact ⟨text, passes⟩
  | error stop =>
    simp only [found]
    exact .fail ((closeTemplate_boundary found).before skips)

theorem punctuator_lands (c : Cursor) : Lands c (c.skip 1) (punctuator c) := by
  unfold punctuator
  cases punctuatorAt? c.rest with
  | some p =>
    have text : p.text.length = 1 + (p.text.length - 1) := by cases p <;> rfl
    dsimp only
    rw [text]
    exact Cursor.reaches_skip_add _ _ c
  | none => exact .fail (.of_reaches (Cursor.reaches_skip 1 c))

theorem lexeme_lands (expecting : Expecting) (c : Cursor) :
    Lands c (c.skip 1) (lexeme expecting c) := by
  unfold lexeme
  split
  next nothing =>
    have still : c.skip 1 = c := by
      obtain ⟨offset, rest⟩ := c
      obtain rfl := nothing
      rfl
    rw [still]
    exact Reaches.refl c
  next ch cs here =>
    split_ifs with starts _ digit point
    · exact word_lands here starts
    · exact privateName_lands c
    · exact number_lands here (.inl digit)
    · exact number_lands here (.inr (beq_iff_eq.mp (Bool.and_eq_true_iff.mp point).1))
    · exact string_lands c
    · exact template_lands _ _ c
    · exact regex_lands c
    · exact punctuator_lands c

/-! ### Kinds -/

variable {kind closed substitution : TokenKind}

theorem wordKind_cases (escaped : Bool) (text : List Char) :
    wordKind escaped text = .identifier ∨ ∃ w, wordKind escaped text = .word w := by
  unfold wordKind
  split
  · split
    · exact .inl rfl
    · exact .inr ⟨_, rfl⟩
  · exact .inl rfl

theorem word_kind (found : word c = .ok (kind, d)) : kind = .identifier ∨ ∃ w, kind = .word w := by
  unfold word at found
  split at found
  · cases found
  · cases found
    exact wordKind_cases _ _

theorem privateName_kind (found : privateName c = .ok (kind, d)) : kind = .privateName := by
  unfold privateName at found
  dsimp only at found
  split at found
  · split at found
    · split at found <;> cases found
      rfl
    · cases found
  · cases found

theorem number_kind (found : number c = .ok (kind, d)) : kind = .number ∨ kind = .bigInt := by
  obtain ⟨stop, -, ends, -⟩ := number_eq_ok_iff.mp found
  obtain rfl : (numberEnd stop).1 = kind := congrArg Prod.fst ends
  unfold numberEnd
  split
  · exact .inr rfl
  · exact .inl rfl

theorem string_kind (found : string c = .ok (kind, d)) : kind = .string := by
  unfold string at found
  split at found
  · cases found
  · split at found <;> cases found
    rfl

theorem regex_kind (found : regex c = .ok (kind, d)) : kind = .regex := by
  unfold regex at found
  dsimp only at found
  split at found <;> cases found
  rfl

theorem template_kind (found : template closed substitution c = .ok (kind, d)) :
    kind = closed ∨ kind = substitution := by
  unfold template at found
  dsimp only at found
  split at found <;> cases found
  · exact .inl rfl
  · exact .inr rfl

theorem punctuator_eq_ok_iff :
    punctuator c = .ok (kind, d) ↔
      ∃ p, punctuatorAt? c.rest = some p ∧ kind = .punct p ∧ d = c.skip p.text.length := by
  unfold punctuator
  cases punctuatorAt? c.rest with
  | none => simp [fail]
  | some p => simp [eq_comm]

/-- A number starts with a digit, which may stand behind a point. -/
def StartsNumber (cs : List Char) : Prop :=
  startsWithDigit cs = true ∨ ∃ fraction, cs = '.' :: fraction ∧ startsWithDigit fraction = true

/-- A lexeme of a kind between two positions, by the scan that gives it and the character that told which. -/
inductive Lexeme (c d : Cursor) : TokenKind → Prop
  | eof (nothing : c.rest = []) (still : d = c) : Lexeme c d .eof
  | identifier {ch : Char} {cs : List Char} (here : c.rest = ch :: cs)
    (starts : Text.isIdStart ch = true ∨ ch = '\\') (found : word c = .ok (.identifier, d)) :
    Lexeme c d .identifier
  | word {k : Keyword} (found : word c = .ok (.word k, d)) : Lexeme c d (.word k)
  | privateName (found : privateName c = .ok (.privateName, d)) : Lexeme c d .privateName
  | number (starts : StartsNumber c.rest) (found : number c = .ok (.number, d)) : Lexeme c d .number
  | bigInt (starts : StartsNumber c.rest) (found : number c = .ok (.bigInt, d)) : Lexeme c d .bigInt
  | string {quote : Char} {cs : List Char} (here : c.rest = quote :: cs) (quotes : quote ∈ ['\x22', '\x27'])
    (found : string c = .ok (.string, d)) : Lexeme c d .string
  | templateWhole (found : template .templateWhole .templateHead c = .ok (.templateWhole, d)) :
    Lexeme c d .templateWhole
  | templateHead (found : template .templateWhole .templateHead c = .ok (.templateHead, d)) :
    Lexeme c d .templateHead
  | regex {cs : List Char} (here : c.rest = '/' :: cs) (found : regex c = .ok (.regex, d)) :
    Lexeme c d .regex
  | punct {p : Punctuator} (found : punctuatorAt? c.rest = some p) (stop : d = c.skip p.text.length) :
    Lexeme c d (.punct p)

/-- Every lexeme comes from the scan of its kind. -/
theorem lexeme_cases {expecting : Expecting} (found : lexeme expecting c = .ok (kind, d)) :
    Lexeme c d kind := by
  cases here : c.rest with
  | nil =>
    simp only [lexeme, here, Except.ok.injEq, Prod.mk.injEq] at found
    obtain ⟨rfl, rfl⟩ := found
    exact .eof here rfl
  | cons ch cs =>
    simp only [lexeme, here] at found
    split_ifs at found with starts hash digit point quotes backtick slash
    · simp only [Bool.or_eq_true, beq_iff_eq] at starts
      rcases word_kind found with rfl | ⟨k, rfl⟩
      · exact .identifier here starts found
      · exact .word found
    · obtain rfl := privateName_kind found
      exact .privateName found
    · have starts : StartsNumber c.rest := .inl (here ▸ digit)
      rcases number_kind found with rfl | rfl
      · exact .number starts found
      · exact .bigInt starts found
    · simp only [Bool.and_eq_true, beq_iff_eq] at point
      have starts : StartsNumber c.rest := .inr ⟨cs, point.1 ▸ here, point.2⟩
      rcases number_kind found with rfl | rfl
      · exact .number starts found
      · exact .bigInt starts found
    · simp only [Bool.or_eq_true, beq_iff_eq] at quotes
      obtain rfl := string_kind found
      exact .string here (by simpa using quotes) found
    · rcases template_kind found with rfl | rfl
      · exact .templateWhole found
      · exact .templateHead found
    · simp only [Bool.and_eq_true, beq_iff_eq] at slash
      obtain rfl := regex_kind found
      exact .regex (slash.1 ▸ here) found
    · obtain ⟨p, longest, rfl, stop⟩ := punctuator_eq_ok_iff.mp found
      exact .punct longest stop

/-- A token with a character is not the end of the text. -/
theorem lexeme_kind_ne_eof {expecting : Expecting} (here : c.rest = ch :: cs)
    (found : lexeme expecting c = .ok (kind, d)) : kind ≠ .eof := by
  rintro rfl
  cases lexeme_cases found with
  | eof nothing => cases here.symm.trans nothing

end
end Scan
end NameAudit
