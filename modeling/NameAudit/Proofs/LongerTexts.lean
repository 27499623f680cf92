import NameAudit.Proofs.Lookahead
import Mathlib.Data.List.TakeWhile

/-!
What the scanner reads in a text that ends with a closing parenthesis does not change when the text goes
on. No token but the parenthesis itself can take that last character and more, so every token before the
end of the text stands in the longer text as well (`token_extend`), and so does every later piece of a
template (`templateRest_extend`). Only the end of the text is read otherwise.
-/
namespace NameAudit

open Cursor (Passes Reaches)

/-! ### Positions in a longer text -/

namespace Cursor

/-- The same position when the text goes on. -/
def extend (c : Cursor) (more : List Char) : Cursor := ⟨c.offset, c.rest ++ more⟩

/-- What follows a position ends with a closing parenthesis. -/
def Closed (c : Cursor) : Prop := ∃ cs, c.rest = cs ++ [')']

section
variable {c d e : Cursor} {text more : List Char} {ch next : Char} {cs : List Char} {p : Char → Bool}

@[simp] theorem extend_rest (c : Cursor) (more : List Char) : (c.extend more).rest = c.rest ++ more := rfl

@[simp] theorem extend_offset (c : Cursor) (more : List Char) : (c.extend more).offset = c.offset := rfl

theorem Passes.extend (passes : c.Passes text d) (more : List Char) :
    (c.extend more).Passes text (d.extend more) := by
  obtain ⟨rest, offset⟩ := passes
  refine ⟨?_, offset⟩
  rw [extend_rest, extend_rest, rest, List.append_assoc]

theorem Reaches.extend (reaches : c.Reaches d) (more : List Char) :
    (c.extend more).Reaches (d.extend more) :=
  reaches.elim fun _ passes => ⟨_, passes.extend more⟩

/-- What stands up to a later position stands there in the longer text. -/
theorem Reaches.upTo_extend (reaches : c.Reaches d) :
    (c.extend more).upTo (d.extend more).offset = c.upTo d.offset := by
  obtain ⟨text, passes⟩ := reaches
  exact (upTo_of_passes (passes.extend more)).trans (upTo_of_passes passes).symm

/-- Two positions reached by passing the same characters are the same. -/
theorem Passes.unique (first : c.Passes text d) (second : c.Passes text e) : d = e := by
  obtain ⟨rest, offset⟩ := first
  obtain ⟨rest', offset'⟩ := second
  obtain ⟨stop, after⟩ := d
  obtain ⟨stop', after'⟩ := e
  obtain rfl := offset
  obtain rfl := offset'
  obtain rfl : after = after' := List.append_cancel_left (rest.symm.trans rest')
  rfl

theorem skip_extend {n : Nat} (enough : n ≤ c.rest.length) :
    (c.extend more).skip n = (c.skip n).extend more := by
  refine Passes.unique (passes_skip n _) ?_
  rw [extend_rest, List.take_append_of_le_length enough]
  exact (passes_skip n c).extend more

theorem skip_one_extend (here : c.rest = ch :: cs) : (c.extend more).skip 1 = (c.skip 1).extend more :=
  skip_extend (by rw [here]; simp)

theorem rest_skip_one (here : c.rest = ch :: cs) : (c.skip 1).rest = cs := by
  obtain ⟨offset, rest⟩ := c
  obtain rfl := here
  rfl

/-- A run that stops before the end stops there in the longer text. -/
theorem skipWhile_extend (stops : (c.skipWhile p).rest ≠ []) :
    (c.extend more).skipWhile p = (c.skipWhile p).extend more := by
  have short : (c.rest.takeWhile p).length ≠ c.rest.length := by
    have left := (passes_skipWhile p c).length
    have := List.length_pos_iff.mpr stops
    omega
  refine Passes.unique (passes_skipWhile p _) ?_
  rw [extend_rest, List.takeWhile_append, if_neg short]
  exact (passes_skipWhile p c).extend more

theorem Reaches.rest_ne_nil (reaches : c.Reaches d) (some : d.rest ≠ []) : c.rest ≠ [] := by
  obtain ⟨text, rest, _⟩ := reaches
  rw [rest]
  exact List.append_ne_nil_of_right_ne_nil _ some

theorem Closed.ne_nil (closed : c.Closed) : c.rest ≠ [] := by
  obtain ⟨cs, same⟩ := closed
  simp [same]

/-- What follows a later position ends alike, unless nothing follows it. -/
theorem Closed.after (closed : c.Closed) (reaches : c.Reaches d) (some : d.rest ≠ []) : d.Closed := by
  obtain ⟨us, same⟩ := closed
  obtain ⟨text, rest, _⟩ := reaches
  obtain ⟨vs, last, split⟩ := List.eq_nil_or_concat d.rest |>.resolve_left some
  refine ⟨vs, ?_⟩
  rw [split, List.concat_eq_append, ← List.append_assoc] at rest
  rw [split, List.concat_eq_append, ← (List.append_inj' (same.symm.trans rest) rfl).2]

/-- A character other than a parenthesis has another one after it. -/
theorem Closed.skip_one (closed : c.Closed) (here : c.rest = ch :: cs) (other : ch ≠ ')') :
    (c.skip 1).Closed := by
  refine closed.after (reaches_skip 1 c) ?_
  rw [rest_skip_one here]
  rintro rfl
  obtain ⟨us, same⟩ := closed
  rw [here] at same
  cases us with
  | nil => exact other (List.cons.inj same).1
  | cons u us => simp at same

/-- The first character stays the same in the longer text. -/
theorem Closed.first (closed : c.Closed) (here : c.rest ++ more = ch :: cs) :
    ∃ cs, c.rest = ch :: cs := by
  obtain ⟨first, rest, same⟩ := List.exists_cons_of_ne_nil closed.ne_nil
  rw [same, List.cons_append] at here
  exact ⟨rest, by rw [same, (List.cons.inj here).1]⟩

/-- The character after one other than a parenthesis stays the same in the longer text. -/
theorem Closed.second (closed : c.Closed) (here : c.rest = ch :: cs) (other : ch ≠ ')') :
    (cs ++ more).head? = cs.head? := by
  have some := (closed.skip_one here other).ne_nil
  rw [rest_skip_one here] at some
  obtain ⟨first, rest, rfl⟩ := List.exists_cons_of_ne_nil some
  rfl

/-- A run that refuses parentheses stops before the end. -/
theorem Closed.skipWhile (closed : c.Closed) (refuses : p ')' = false) : (c.skipWhile p).Closed := by
  refine closed.after (reaches_skipWhile p c) ?_
  rw [rest_skipWhile]
  intro all
  obtain ⟨us, same⟩ := closed
  have accepted := List.dropWhile_eq_nil_iff.mp all ')' (by simp [same])
  exact Bool.false_ne_true (refuses.symm.trans accepted)

end
end Cursor

namespace Scan

open Cursor (extend extend_rest extend_offset)

section
variable {c d : Cursor} {ch : Char} {cs more : List Char} {expecting : Expecting} {kind : TokenKind}

/-! ### Blanks and comments -/

theorem trivia_line (seen : Trivia) (here : c.rest = '/' :: '/' :: cs) :
    trivia seen c = trivia seen ((c.skip 2).skipWhile staysInLine) := by
  rw [trivia]
  split <;> simp_all

theorem trivia_block (seen : Trivia) (here : c.rest = '/' :: '*' :: cs)
    (closed : closeComment (c.offset + 2) cs = some d) :
    trivia seen c = trivia (seen.addComment (d.spanFrom c.offset) (c.upTo d.offset)) d := by
  rw [trivia]
  split
  · simp_all
  next same =>
    obtain rfl : cs = _ := by simpa [here] using same
    split
    next none => cases closed.symm.trans none
    next some =>
      obtain rfl := Option.some.inj (closed.symm.trans some)
      rfl
  · simp_all
  · simp_all

/-- Where no comment begins, one character tells whether it is passed. -/
theorem trivia_char (seen : Trivia) (here : c.rest = ch :: cs)
    (plain : ch = '/' → cs.head? ≠ some '/' ∧ cs.head? ≠ some '*') :
    trivia seen c =
      if Text.isLineTerminator ch then trivia { seen with newline := true } (c.skip 1)
      else if isSpace ch then trivia seen (c.skip 1)
      else .ok (seen, c) := by
  rw [trivia]
  split
  next same =>
    obtain ⟨rfl, rfl⟩ := List.cons_eq_cons.mp (here.symm.trans same)
    exact absurd rfl (plain rfl).1
  next same =>
    obtain ⟨rfl, rfl⟩ := List.cons_eq_cons.mp (here.symm.trans same)
    exact absurd rfl (plain rfl).2
  next same =>
    obtain ⟨rfl, rfl⟩ := List.cons_eq_cons.mp (here.symm.trans same)
    rfl
  next none => cases here.symm.trans none

/-- The same in the longer text. -/
theorem trivia_char_extend (seen : Trivia) (closed : c.Closed) (here : c.rest = ch :: cs)
    (line : ∀ tail, ch = '/' → cs ≠ '/' :: tail) (block : ∀ tail, ch = '/' → cs ≠ '*' :: tail) :
    trivia seen (c.extend more) =
      if Text.isLineTerminator ch then
        trivia { seen with newline := true } ((c.skip 1).extend more)
      else if isSpace ch then trivia seen ((c.skip 1).extend more)
      else .ok (seen, c.extend more) := by
  have longer : (c.extend more).rest = ch :: (cs ++ more) := by rw [extend_rest, here]; rfl
  rw [trivia_char seen longer, Cursor.skip_one_extend here]
  rintro rfl
  rw [closed.second here (by decide)]
  constructor
  · intro second
    obtain ⟨tail, same⟩ := List.head?_eq_some_iff.mp second
    exact line tail rfl same
  · intro second
    obtain ⟨tail, same⟩ := List.head?_eq_some_iff.mp second
    exact block tail rfl same

theorem trivia_reaches {seen noted : Trivia} (read : trivia seen c = .ok (noted, d)) :
    c.Reaches d := by
  have lands := trivia_lands seen c
  rwa [read] at lands

theorem trivia_extend {seen noted : Trivia} (closed : c.Closed)
    (read : trivia seen c = .ok (noted, d)) (some : d.rest ≠ []) :
    trivia seen (c.extend more) = .ok (noted, d.extend more) := by
  fun_induction trivia seen c with
  | case1 seen c tail here ih =>
    have two : 2 ≤ c.rest.length := by simp [here]
    have inLine := (trivia_reaches read).rest_ne_nil some
    have onward := closed.after
      ((Cursor.reaches_skip 2 c).trans (Cursor.reaches_skipWhile staysInLine _)) inLine
    have longer : (c.extend more).rest = '/' :: '/' :: (tail ++ more) := by rw [extend_rest, here]; rfl
    rw [trivia_line seen longer, Cursor.skip_extend two, Cursor.skipWhile_extend inLine]
    exact ih onward read
  | case2 => cases read
  | case3 seen c cs here e found ih =>
    obtain ⟨text, passes, again⟩ := closeComment_passes found
    have whole : c.Passes ('/' :: '*' :: text) e := by
      obtain ⟨offset, rest⟩ := c
      obtain rfl := here
      exact passes.cons.cons
    have left := (trivia_reaches read).rest_ne_nil some
    have later : closeComment ((c.extend more).offset + 2) (cs ++ more) = Option.some (e.extend more) := by
      have rest : cs ++ more = text ++ (e.rest ++ more) := by
        rw [← List.append_assoc, ← passes.1]
      rw [rest]
      exact again _
    rw [trivia_block seen (by rw [extend_rest, here]; rfl) later]
    rw [Reaches.upTo_extend ⟨_, whole⟩]
    exact ih (closed.after ⟨_, whole⟩ left) read
  | case4 seen c ch tail line block here ends ih =>
    have onward := closed.after (Cursor.reaches_skip 1 c) ((trivia_reaches read).rest_ne_nil some)
    rw [trivia_char_extend seen closed here line block, if_pos ends]
    exact ih onward read
  | case5 seen c ch tail line block here stays space ih =>
    have onward := closed.after (Cursor.reaches_skip 1 c) ((trivia_reaches read).rest_ne_nil some)
    rw [trivia_char_extend seen closed here line block, if_neg stays, if_pos space]
    exact ih onward read
  | case6 seen c ch tail line block here stays other =>
    obtain ⟨rfl, rfl⟩ : seen = noted ∧ c = d := by simpa using read
    rw [trivia_char_extend seen closed here line block, if_neg stays, if_neg other]
  | case7 seen c nothing => exact absurd nothing closed.ne_nil

/-! ### Names -/

theorem hexRun?_append (more : List Char) {n value : Nat} (found : Escape.hexRun? n cs = some value) :
    n ≤ cs.length ∧ Escape.hexRun? n (cs ++ more) = some value := by
  unfold Escape.hexRun? at found ⊢
  split at found
  next whole =>
    have enough : n ≤ cs.length := by
      rw [List.length_take] at whole
      omega
    rw [List.take_append_of_le_length enough, if_pos whole]
    exact ⟨enough, found⟩
  · cases found

theorem codeUnit?_brace (inner : List Char) :
    Escape.codeUnit? ('\x7b' :: inner) =
      let digits := inner.takeWhile (· != '\x7d')
      if digits.length < inner.length then
        match Escape.hex? digits with
        | some value => if value ≤ 0x10ffff then some (value, digits.length + 2) else none
        | none => none
      else none := rfl

theorem codeUnit?_digits (other : cs.head? ≠ some '\x7b') :
    Escape.codeUnit? cs = (Escape.hexRun? 4 cs).map fun value => (value, 4) := by
  unfold Escape.codeUnit?
  split
  · exact absurd rfl other
  · rfl

theorem hexFrom_digits {start value : Nat} (found : Escape.hexFrom start cs = some value) :
    ∀ ch ∈ cs, (Escape.hexDigit? ch).isSome = true := by
  induction cs generalizing start with
  | nil => simp
  | cons ch cs ih =>
    unfold Escape.hexFrom at found
    split at found
    next digit =>
      intro x member
      rcases List.mem_cons.mp member with rfl | later
      · rw [digit]
        rfl
      · exact ih found x later
    · cases found

/-- An escape does not take a last parenthesis. -/
theorem codeUnit?_lt {value n : Nat} {us : List Char}
    (found : Escape.codeUnit? (us ++ [')']) = some (value, n)) : n < (us ++ [')']).length := by
  by_cases brace : (us ++ [')']).head? = some '\x7b'
  · obtain ⟨inner, same⟩ := List.head?_eq_some_iff.mp brace
    rw [same, codeUnit?_brace] at found
    rw [same]
    dsimp only at found
    split at found
    next closes =>
      have length : n = (inner.takeWhile (· != '\x7d')).length + 2 := by
        split at found
        · split at found
          · cases found
            rfl
          · cases found
        · cases found
      rw [length, List.length_cons]
      by_contra tight
      -- Then the last character is the first that is not a digit, and so the closing brace.
      have whole := List.takeWhile_append_dropWhile (p := (· != '\x7d')) (l := inner)
      have one : (inner.dropWhile (· != '\x7d')).length = 1 := by
        have sum := congrArg List.length whole
        rw [List.length_append] at sum
        omega
      obtain ⟨last, stops⟩ := List.length_eq_one_iff.mp one
      have refused := List.head_dropWhile_not (· != '\x7d') (l := inner) (by simp [stops])
      rw [stops] at whole
      rw [← whole, ← List.cons_append] at same
      obtain rfl : last = ')' := by simpa using (List.append_inj' same rfl).2.symm
      simp [stops] at refused
    · cases found
  · rw [codeUnit?_digits brace] at found
    obtain ⟨value', run, same⟩ := Option.map_eq_some_iff.mp found
    obtain ⟨rfl, rfl⟩ : value' = value ∧ 4 = n := by simpa using same
    obtain ⟨enough, -⟩ := hexRun?_append [] run
    refine Nat.lt_of_le_of_ne enough fun tight => ?_
    unfold Escape.hexRun? Escape.hex? at run
    rw [tight, List.take_length, if_pos rfl, if_neg (by simp)] at run
    exact absurd (hexFrom_digits run ')' (by simp)) (by decide)

/-- An escape is told by its own characters. -/
theorem codeUnit?_append (more : List Char) {value n : Nat} (found : Escape.codeUnit? cs = some (value, n)) :
    n ≤ cs.length ∧ Escape.codeUnit? (cs ++ more) = some (value, n) := by
  by_cases brace : cs.head? = some '\x7b'
  · obtain ⟨inner, rfl⟩ := List.head?_eq_some_iff.mp brace
    rw [codeUnit?_brace] at found
    dsimp only at found
    split at found
    next closes =>
      have same : (inner ++ more).takeWhile (· != '\x7d') = inner.takeWhile (· != '\x7d') := by
        rw [List.takeWhile_append, if_neg (by omega)]
      rw [List.cons_append, codeUnit?_brace, same]
      dsimp only
      rw [if_pos (by rw [List.length_append]; omega)]
      refine ⟨?_, found⟩
      split at found
      · split at found
        · cases found
          rw [List.length_cons]
          omega
        · cases found
      · cases found
    · cases found
  · rw [codeUnit?_digits brace] at found
    obtain ⟨value', run, same⟩ := Option.map_eq_some_iff.mp found
    obtain ⟨rfl, rfl⟩ : value' = value ∧ 4 = n := by simpa using same
    obtain ⟨enough, again⟩ := hexRun?_append more run
    refine ⟨enough, ?_⟩
    rw [codeUnit?_digits, again, Option.map_some]
    cases cs with
    | nil => simp at enough
    | cons first tail => exact brace

theorem codePoint?_append (more : List Char) {n : Nat} (found : Escape.codePoint? cs = some (ch, n)) :
    n ≤ cs.length ∧ Escape.codePoint? (cs ++ more) = some (ch, n) := by
  unfold Escape.codePoint? at found ⊢
  obtain ⟨⟨value, m⟩, unit, same⟩ := Option.map_eq_some_iff.mp found
  obtain ⟨enough, again⟩ := codeUnit?_append more unit
  obtain ⟨rfl, rfl⟩ : _ = ch ∧ m = n := by simpa using same
  exact ⟨enough, by rw [again, Option.map_some]⟩

theorem codePoint?_lt {n : Nat} {us : List Char}
    (found : Escape.codePoint? (us ++ [')']) = some (ch, n)) : n < (us ++ [')']).length := by
  unfold Escape.codePoint? at found
  obtain ⟨⟨value, m⟩, unit, same⟩ := Option.map_eq_some_iff.mp found
  obtain ⟨-, rfl⟩ : _ = ch ∧ m = n := by simpa using same
  exact codeUnit?_lt unit

theorem name_stop {escaped : Bool} (here : (c.skipWhile Text.isIdContinue).rest = ch :: cs)
    (plain : ch ≠ '\\') : name escaped c = .ok (escaped, c.skipWhile Text.isIdContinue) := by
  rw [name]
  split
  next same => exact absurd (List.cons.inj (here.symm.trans same)).1 plain
  next same => exact absurd (List.cons.inj (here.symm.trans same)).1 plain
  next same => exact absurd (List.cons.inj (here.symm.trans same)).1 plain
  · rfl

theorem name_escape {escaped : Bool} {n : Nat}
    (here : (c.skipWhile Text.isIdContinue).rest = '\\' :: 'u' :: cs)
    (decoded : Escape.codePoint? cs = some (ch, n)) :
    name escaped c = name true ((c.skipWhile Text.isIdContinue).skip (n + 2)) := by
  rw [name]
  split <;> simp_all

theorem name_reaches {escaped read : Bool} (found : name escaped c = .ok (read, d)) : c.Reaches d := by
  have lands := name_lands escaped c
  rwa [found] at lands

/-- A name stops before the last parenthesis. -/
theorem name_extend (more : List Char) {escaped read : Bool} (closed : c.Closed)
    (found : name escaped c = .ok (read, d)) :
    d.Closed ∧ name escaped (c.extend more) = .ok (read, d.extend more) := by
  fun_induction name escaped c with
  | case1 escaped c stop cs escape ch n decoded ih =>
    have stops : stop.Closed := closed.skipWhile (by decide)
    have onward : (c.extend more).skipWhile Text.isIdContinue = stop.extend more :=
      Cursor.skipWhile_extend stops.ne_nil
    obtain ⟨enough, again⟩ := codePoint?_append more decoded
    have longer : ((c.extend more).skipWhile Text.isIdContinue).rest = '\\' :: 'u' :: (cs ++ more) := by
      rw [onward, extend_rest, escape]
      rfl
    rw [name_escape longer again, onward,
      Cursor.skip_extend (by rw [escape]; simp only [List.length_cons]; omega)]
    refine ih (stops.after (Cursor.reaches_skip _ _) ?_) found
    rw [← List.length_pos_iff, Cursor.length_rest_skip, escape]
    have next := Cursor.rest_skip_one escape
    obtain ⟨us, last⟩ := (stops.skip_one escape (by decide)).skip_one next (by decide)
    rw [Cursor.rest_skip_one next] at last
    rw [last] at decoded ⊢
    have short := codePoint?_lt decoded
    simp only [List.length_cons]
    omega
  | case2 => cases found
  | case3 => cases found
  | case4 => cases found
  | case5 escaped c stop escape more' alone =>
    have stops : stop.Closed := closed.skipWhile (by decide)
    have onward : (c.extend more).skipWhile Text.isIdContinue = stop.extend more :=
      Cursor.skipWhile_extend stops.ne_nil
    obtain ⟨rfl, rfl⟩ : escaped = read ∧ stop = d := by simpa using found
    refine ⟨stops, ?_⟩
    obtain ⟨ch, cs, here⟩ := List.exists_cons_of_ne_nil stops.ne_nil
    have plain : ch ≠ '\\' := by
      rintro rfl
      cases cs with
      | nil => exact alone here
      | cons u cs => exact more' u cs here
    have longer : ((c.extend more).skipWhile Text.isIdContinue).rest = ch :: (cs ++ more) := by
      rw [onward, extend_rest, here]
      rfl
    rw [name_stop longer plain, onward]

/-! ### Numbers -/

theorem digits_extend (more : List Char) (closed : c.Closed) (radix : Nat) :
    (digits radix c).Closed ∧ digits radix (c.extend more) = (digits radix c).extend more := by
  have stops : (digits radix c).Closed := closed.skipWhile (by simp [isDigitOf, Escape.hexDigit?])
  exact ⟨stops, Cursor.skipWhile_extend stops.ne_nil⟩

theorem skipSign_extend (more : List Char) (closed : c.Closed) :
    (skipSign c).Closed ∧ skipSign (c.extend more) = (skipSign c).extend more := by
  unfold skipSign
  split
  next here =>
    rw [extend_rest, here]
    exact ⟨closed.skip_one here (by decide), Cursor.skip_one_extend here⟩
  next here =>
    rw [extend_rest, here]
    exact ⟨closed.skip_one here (by decide), Cursor.skip_one_extend here⟩
  next plus minus =>
    refine ⟨closed, ?_⟩
    split
    next same =>
      obtain ⟨cs, here⟩ := closed.first same
      exact (plus cs here).elim
    next same =>
      obtain ⟨cs, here⟩ := closed.first same
      exact (minus cs here).elim
    · rfl

theorem skipFraction_extend (more : List Char) (closed : c.Closed) :
    (skipFraction c).Closed ∧ skipFraction (c.extend more) = (skipFraction c).extend more := by
  unfold skipFraction
  split
  next here =>
    rw [extend_rest, here, Cursor.skip_one_extend here]
    exact digits_extend more (closed.skip_one here (by decide)) 10
  next point =>
    refine ⟨closed, ?_⟩
    split
    next same =>
      obtain ⟨cs, here⟩ := closed.first same
      exact (point cs here).elim
    · rfl

theorem exponentStart?_extend (more : List Char) (closed : c.Closed) :
    (∀ d, exponentStart? c = some d → d.Closed) ∧
      exponentStart? (c.extend more) = (exponentStart? c).map (·.extend more) := by
  unfold exponentStart?
  split
  next here =>
    obtain ⟨stops, again⟩ := skipSign_extend more (closed.skip_one here (by decide))
    refine ⟨by rintro d ⟨⟩; exact stops, ?_⟩
    rw [extend_rest, here, Cursor.skip_one_extend here, Option.map_some, ← again]
    rfl
  next here =>
    obtain ⟨stops, again⟩ := skipSign_extend more (closed.skip_one here (by decide))
    refine ⟨by rintro d ⟨⟩; exact stops, ?_⟩
    rw [extend_rest, here, Cursor.skip_one_extend here, Option.map_some, ← again]
    rfl
  next small large =>
    refine ⟨by rintro d ⟨⟩, ?_⟩
    split
    next same =>
      obtain ⟨cs, here⟩ := closed.first same
      exact (small cs here).elim
    next same =>
      obtain ⟨cs, here⟩ := closed.first same
      exact (large cs here).elim
    · rfl

theorem radixOf?_extend (closed : c.Closed) : radixOf? (c.rest ++ more) = radixOf? c.rest := by
  obtain ⟨first, rest, here⟩ := List.exists_cons_of_ne_nil closed.ne_nil
  rw [here]
  by_cases last : first = ')'
  · subst last
    rfl
  · have some := (closed.skip_one here last).ne_nil
    rw [Cursor.rest_skip_one here] at some
    obtain ⟨second, tail, rfl⟩ := List.exists_cons_of_ne_nil some
    unfold radixOf?
    split <;> split <;> simp_all

/-- What announces a radix is a zero and a letter. -/
theorem radixOf?_letters {radix : Nat} (found : radixOf? cs = some radix) :
    ∃ letter tail, cs = '0' :: letter :: tail ∧ letter ≠ ')' := by
  unfold radixOf? at found
  split at found
  all_goals first | exact ⟨_, _, rfl, by decide⟩ | cases found

/-- Digits that have to be there. -/
theorem needed_digits_extend {radix : Nat} (closed : c.Closed)
    (found : (if (digits radix c).offset = c.offset then .error (digits radix c).offset
      else .ok (digits radix c) : Except Nat Cursor) = .ok d) :
    d.Closed ∧
      (if (digits radix (c.extend more)).offset = (c.extend more).offset then
          .error (digits radix (c.extend more)).offset
        else .ok (digits radix (c.extend more)) : Except Nat Cursor) = .ok (d.extend more) := by
  obtain ⟨stops, again⟩ := digits_extend more closed radix
  rw [again]
  split at found
  · cases found
  next moved =>
    cases found
    exact ⟨stops, if_neg moved⟩

theorem numeral_extend (more : List Char) (closed : c.Closed) (found : numeral c = .ok d) :
    d.Closed ∧ numeral (c.extend more) = .ok (d.extend more) := by
  unfold numeral at found ⊢
  rw [extend_rest, radixOf?_extend closed]
  cases radix : radixOf? c.rest with
  | some r =>
    rw [radix] at found
    obtain ⟨letter, tail, here, other⟩ := radixOf?_letters radix
    have zero := closed.skip_one here (by decide)
    have start := zero.skip_one (Cursor.rest_skip_one here) other
    rw [← Cursor.skip_add] at start
    dsimp only at found ⊢
    rw [Cursor.skip_extend (by rw [here]; simp)]
    exact needed_digits_extend start found
  | none =>
    rw [radix] at found
    obtain ⟨whole, again⟩ := digits_extend more closed 10
    obtain ⟨mantissa, again'⟩ := skipFraction_extend more whole
    obtain ⟨starts, exponent⟩ := exponentStart?_extend more mantissa
    dsimp only at found ⊢
    rw [again, again', exponent]
    cases begins : exponentStart? (skipFraction (digits 10 c)) with
    | none =>
      rw [begins] at found
      cases found
      exact ⟨mantissa, rfl⟩
    | some start =>
      rw [begins] at found
      exact needed_digits_extend (starts start begins) found

theorem numberEnd_extend (more : List Char) (closed : c.Closed) :
    (numberEnd c).2.Closed ∧ numberEnd (c.extend more) = ((numberEnd c).1, (numberEnd c).2.extend more) := by
  unfold numberEnd
  split
  next here =>
    rw [extend_rest, here]
    exact ⟨closed.skip_one here (by decide), congrArg _ (Cursor.skip_one_extend here)⟩
  next other =>
    refine ⟨closed, ?_⟩
    split
    next same =>
      obtain ⟨cs, here⟩ := closed.first same
      exact (other cs here).elim
    · rfl

theorem number_extend (closed : c.Closed) (found : number c = .ok (kind, d)) :
    number (c.extend more) = .ok (kind, d.extend more) := by
  obtain ⟨stop, read, same, stops⟩ := number_eq_ok_iff.mp found
  obtain ⟨digits, again⟩ := numeral_extend more closed read
  obtain ⟨ends, longer⟩ := numberEnd_extend more digits
  rw [same] at ends longer
  refine number_eq_ok_iff.mpr ⟨_, again, longer, fun ch cs here => ?_⟩
  obtain ⟨tail, next⟩ := ends.first here
  exact stops ch tail next

/-! ### Strings, regular expressions, templates and punctuators -/

theorem string_extend (found : string c = .ok (kind, d)) :
    string (c.extend more) = .ok (kind, d.extend more) := by
  obtain ⟨offset, rest⟩ := c
  cases rest with
  | nil => cases found
  | cons quote cs =>
    simp only [string] at found
    split at found
    next e closes =>
      cases found
      obtain ⟨text, passes, again⟩ := closeString_passes closes
      have whole : closeString quote (offset + quote.utf8Size) (cs ++ more) = .ok (d.extend more) := by
        rw [show cs ++ more = text ++ (d.rest ++ more) by rw [← List.append_assoc, ← passes.1]]
        exact again _
      simp only [string, extend, List.cons_append, whole]
    · cases found

/-- A regular expression closes with a slash. -/
theorem closeRegex_slash {inClass : Bool} {offset : Nat} (found : closeRegex inClass offset cs = .ok d) :
    ∃ us, cs = us ++ '/' :: d.rest := by
  fun_induction closeRegex inClass offset cs with
  | case1 => cases found
  | case2 => cases found
  | case3 => cases found
  | case4 inClass offset e cs stays ih =>
    obtain ⟨us, same⟩ := ih found
    exact ⟨'\\' :: e :: us, by rw [same]; rfl⟩
  | case5 inClass offset cs _ _ ih =>
    obtain ⟨us, same⟩ := ih found
    exact ⟨'[' :: us, by rw [same]; rfl⟩
  | case6 inClass offset cs _ _ opens ih =>
    obtain ⟨us, same⟩ := ih found
    exact ⟨']' :: us, by rw [same]; rfl⟩
  | case7 inClass offset c cs _ _ opens closes ends =>
    cases found
    exact ⟨[], by rw [ends.1]; rfl⟩
  | case8 => cases found
  | case9 inClass offset c cs alone escaped opens closes ends stays ih =>
    obtain ⟨us, same⟩ := ih found
    exact ⟨c :: us, by rw [same]; rfl⟩

theorem regex_extend (closed : c.Closed) (here : c.rest = '/' :: cs)
    (found : regex c = .ok (kind, d)) : regex (c.extend more) = .ok (kind, d.extend more) := by
  have onward := closed.skip_one here (by decide)
  unfold regex at found ⊢
  dsimp only at found ⊢
  rw [Cursor.skip_one_extend here]
  split at found
  next e closes =>
    cases found
    obtain ⟨text, passes, again⟩ := closeRegex_passes closes
    have whole : closeRegex false ((c.skip 1).extend more).offset ((c.skip 1).extend more).rest =
        .ok (e.extend more) := by
      rw [extend_rest, passes.1, List.append_assoc]
      exact again _
    have left : e.Closed := by
      refine onward.after ⟨_, passes⟩ fun ended => ?_
      obtain ⟨us, slash⟩ := closeRegex_slash closes
      obtain ⟨vs, last⟩ := onward
      rw [ended, last] at slash
      simpa using (List.append_inj' slash rfl).2
    have stops := left.skipWhile (p := Text.isIdContinue) (by decide)
    simp only [whole, Cursor.skipWhile_extend stops.ne_nil]
  · cases found

theorem template_extend {closing substitution : TokenKind} (here : c.rest = ch :: cs)
    (found : template closing substitution c = .ok (kind, d)) :
    template closing substitution (c.extend more) = .ok (kind, d.extend more) := by
  unfold template at found ⊢
  dsimp only at found ⊢
  rw [Cursor.skip_one_extend here]
  have again {stopsAt e} (closes : closeTemplate (c.skip 1).offset (c.skip 1).rest = .ok (stopsAt, e)) :
      closeTemplate ((c.skip 1).extend more).offset ((c.skip 1).extend more).rest =
        .ok (stopsAt, e.extend more) := by
    obtain ⟨text, passes, again⟩ := closeTemplate_passes closes
    rw [extend_rest, passes.1, List.append_assoc]
    exact again _
  split at found
  next e closes =>
    cases found
    simp only [again closes]
  next e closes =>
    cases found
    simp only [again closes]
  · cases found

theorem mem_parenClose {p : Punctuator} (member : ')' ∈ p.text.toList) : p = .parenClose := by
  revert member
  cases p <;> decide

/-- A punctuator that begins a longer text is in the text. -/
theorem prefix_extend (closed : c.Closed) {p : Punctuator} (begins : p.text.toList <+: c.rest ++ more) :
    p.text.toList <+: c.rest := by
  rcases List.prefix_or_prefix_of_prefix begins (List.prefix_append c.rest more) with inside | beyond
  · exact inside
  · obtain ⟨cs, same⟩ := closed
    obtain rfl := mem_parenClose (beyond.subset (by simp [same]))
    have short := beyond.length_le
    rw [same, List.length_append] at short
    have nothing : cs = [] := by
      rw [← List.length_eq_zero_iff]
      simpa [Punctuator.text] using short
    rw [same, nothing]
    exact List.prefix_refl _

theorem longest?_extend (closed : c.Closed) :
    Punctuator.longest? (c.rest ++ more) = Punctuator.longest? c.rest := by
  unfold Punctuator.longest?
  congr 1
  refine List.filter_congr fun p _ => ?_
  rw [Bool.eq_iff_iff, List.isPrefixOf_iff_prefix, List.isPrefixOf_iff_prefix]
  exact ⟨prefix_extend closed, fun begins => begins.trans (List.prefix_append _ _)⟩

theorem punctuatorAt?_extend (closed : c.Closed) : punctuatorAt? (c.rest ++ more) = punctuatorAt? c.rest := by
  unfold punctuatorAt?
  rw [longest?_extend closed]
  split
  next optional =>
    -- Two characters other than a parenthesis are followed by another one.
    obtain ⟨tail, same⟩ := Punctuator.prefix_of_longest? optional
    have here : c.rest = '?' :: '.' :: tail := same.symm
    have next := Cursor.rest_skip_one here
    have onward := (closed.skip_one here (by decide)).skip_one next (by decide)
    have some := onward.ne_nil
    rw [Cursor.rest_skip_one next] at some
    obtain ⟨third, rest, rfl⟩ := List.exists_cons_of_ne_nil some
    rw [here]
    rfl
  · rfl

theorem punctuator_extend (closed : c.Closed) (found : punctuator c = .ok (kind, d)) :
    punctuator (c.extend more) = .ok (kind, d.extend more) := by
  obtain ⟨p, chosen, rfl, rfl⟩ := punctuator_eq_ok_iff.mp found
  refine punctuator_eq_ok_iff.mpr ⟨p, (punctuatorAt?_extend closed).trans chosen, rfl, ?_⟩
  have enough := (prefix_of_punctuatorAt? chosen).length_le
  rw [String.length_toList] at enough
  exact (Cursor.skip_extend enough).symm

/-! ### Tokens -/

theorem word_extend (closed : c.Closed) (found : word c = .ok (kind, d)) :
    word (c.extend more) = .ok (kind, d.extend more) := by
  unfold word at found ⊢
  split at found
  · cases found
  next escaped d read =>
    cases found
    obtain ⟨-, again⟩ := name_extend more closed read
    rw [again]
    dsimp only
    rw [(name_reaches read).upTo_extend]

theorem privateName_extend (closed : c.Closed) (here : c.rest = '#' :: cs)
    (found : privateName c = .ok (kind, d)) :
    privateName (c.extend more) = .ok (kind, d.extend more) := by
  have onward := closed.skip_one here (by decide)
  unfold privateName at found ⊢
  dsimp only at found ⊢
  rw [Cursor.skip_one_extend here]
  obtain ⟨ch, tail, next⟩ := List.exists_cons_of_ne_nil onward.ne_nil
  rw [next] at found
  rw [extend_rest, next]
  dsimp only [List.cons_append] at found ⊢
  split at found
  next starts =>
    rw [if_pos starts]
    split at found
    · cases found
    next read =>
      cases found
      obtain ⟨-, again⟩ := name_extend more onward read
      rw [again]
  · cases found

theorem lexeme_extend (more : List Char) (closed : c.Closed) (found : lexeme expecting c = .ok (kind, d)) :
    lexeme expecting (c.extend more) = .ok (kind, d.extend more) := by
  obtain ⟨ch, cs, here⟩ := List.exists_cons_of_ne_nil closed.ne_nil
  unfold lexeme at found ⊢
  rw [here] at found
  rw [extend_rest, here]
  dsimp only [List.cons_append] at found ⊢
  have same : (ch == '.' && startsWithDigit (cs ++ more)) = (ch == '.' && startsWithDigit cs) := by
    by_cases point : ch = '.'
    · have next := (closed.skip_one here (by rw [point]; decide)).ne_nil
      rw [Cursor.rest_skip_one here] at next
      obtain ⟨second, tail, rfl⟩ := List.exists_cons_of_ne_nil next
      rfl
    · rw [beq_false_of_ne point, Bool.false_and, Bool.false_and]
  rw [same]
  split_ifs at found ⊢
  · exact word_extend closed found
  next hash => exact privateName_extend closed (by rw [here, beq_iff_eq.mp hash]) found
  · exact number_extend closed found
  · exact number_extend closed found
  · exact string_extend found
  · exact template_extend here found
  next slash =>
    rw [Bool.and_eq_true] at slash
    exact regex_extend closed (by rw [here, beq_iff_eq.mp slash.1]) found
  · exact punctuator_extend closed found

/-- A token that stands in a text stands there when the text goes on after its last parenthesis. -/
theorem token_extend {t : Token} (closed : c.Closed) (read : token expecting c = .ok (t, d))
    (more' : t.kind ≠ .eof) : token expecting (c.extend more) = .ok (t, d.extend more) := by
  obtain ⟨seen, start, kind, passed, found, rfl⟩ := token_eq_ok_iff.mp read
  have some : start.rest ≠ [] := by
    intro ended
    obtain ⟨rfl, -⟩ : .eof = kind ∧ start = d := by simpa using (lexeme_of_nil ended).symm.trans found
    exact more' rfl
  have reaches := trivia_reaches passed
  have again := lexeme_extend more (closed.after reaches some) found
  refine token_eq_ok_iff.mpr ⟨seen, _, kind, trivia_extend closed passed some, again, ?_⟩
  have lands := lexeme_lands expecting start
  rw [found] at lands
  unfold tokenAt
  rw [((Cursor.reaches_skip 1 start).trans lands).upTo_extend]
  rfl

/-- The same for a later piece of a template. -/
theorem templateRest_extend {t : Token} (read : templateRest c = .ok (t, d)) :
    templateRest (c.extend more) = .ok (t, d.extend more) := by
  have reaches := (templateRest_ok read).1
  unfold templateRest at read ⊢
  split at read
  next here =>
    rw [extend_rest, here]
    dsimp only [List.cons_append]
    split at read
    · cases read
    next found =>
      cases read
      rw [template_extend here found]
      unfold tokenAt
      dsimp only
      rw [reaches.upTo_extend]
      rfl
  · cases read

end
end Scan
end NameAudit
