import NameAudit.Proofs.LongerTexts

/-!
The texts of names, one character after the other, each written raw or as an escape (`NamePart`). The
scanner decides from the rest of the file how far an escape goes, and the decoder from the text of the token
alone; but an escape is told by its own characters (`codePoint?_take`), so the decoder reads the parts that
the scanner passed (`Given.name_parts`, `identifier?_textOf`).
-/
namespace NameAudit

/-! ### Escapes -/

namespace Scan

section
variable {ch : Char} {cs inner digits rest : List Char} {n value : Nat}

/-- An escape in braces runs to the first closing brace. -/
theorem codeUnit?_braces_iff (plain : '\x7d' ∉ digits) :
    Escape.codeUnit? ('\x7b' :: (digits ++ '\x7d' :: rest)) = some (value, n) ↔
      Escape.hex? digits = some value ∧ value ≤ 0x10ffff ∧ n = digits.length + 2 := by
  have stops : (digits ++ '\x7d' :: rest).takeWhile (· != '\x7d') = digits := by
    rw [List.takeWhile_append_of_pos, List.takeWhile_cons_of_neg (by decide), List.append_nil]
    intro c member
    exact bne_iff_ne.mpr fun same => plain (same ▸ member)
  rw [codeUnit?_brace]
  dsimp only
  rw [stops, if_pos (by simp)]
  cases Escape.hex? digits with
  | none => simp
  | some number =>
    by_cases small : number ≤ 0x10ffff
    · simp only [small, if_true, Option.some.injEq, Prod.mk.injEq]
      constructor
      · rintro ⟨rfl, rfl⟩
        exact ⟨rfl, small, rfl⟩
      · rintro ⟨rfl, -, rfl⟩
        exact ⟨rfl, rfl⟩
    · simp only [small, if_false, Option.some.injEq, reduceCtorEq, false_iff, not_and]
      rintro rfl fits
      exact absurd fits small

theorem exists_braces (found : Escape.codeUnit? ('\x7b' :: inner) = some (value, n)) :
    ∃ digits rest, inner = digits ++ '\x7d' :: rest ∧ '\x7d' ∉ digits := by
  rw [codeUnit?_brace] at found
  dsimp only at found
  split at found
  next closes =>
    have whole := List.takeWhile_append_dropWhile (p := (· != '\x7d')) (l := inner)
    have left : inner.dropWhile (· != '\x7d') ≠ [] := by
      intro nothing
      rw [nothing, List.append_nil] at whole
      rw [whole] at closes
      exact Nat.lt_irrefl _ closes
    have refused := List.head_dropWhile_not (· != '\x7d') left
    obtain ⟨first, rest, same⟩ := List.exists_cons_of_ne_nil left
    simp only [same, List.head_cons, bne_eq_false_iff_eq] at refused
    obtain rfl := refused
    refine ⟨inner.takeWhile (· != '\x7d'), rest, by rw [← same, whole], fun member => ?_⟩
    exact absurd (List.mem_takeWhile_imp member) (by decide)
  · cases found

/-- The number of an escape is told by the characters that belong to it. -/
theorem codeUnit?_take (found : Escape.codeUnit? cs = some (value, n)) :
    Escape.codeUnit? (cs.take n) = some (value, n) := by
  by_cases brace : cs.head? = some '\x7b'
  · obtain ⟨inner, rfl⟩ := List.head?_eq_some_iff.mp brace
    obtain ⟨digits, rest, rfl, plain⟩ := exists_braces found
    obtain ⟨number, small, rfl⟩ := (codeUnit?_braces_iff plain).mp found
    have own : (digits ++ '\x7d' :: rest).take (digits.length + 1) = digits ++ ['\x7d'] := by
      rw [List.take_append, List.take_of_length_le (Nat.le_succ _), Nat.add_sub_cancel_left]
      rfl
    rw [List.take_succ_cons, own]
    exact (codeUnit?_braces_iff plain).mpr ⟨number, small, rfl⟩
  · rw [codeUnit?_digits brace] at found
    obtain ⟨value', run, same⟩ := Option.map_eq_some_iff.mp found
    obtain ⟨rfl, rfl⟩ : value' = value ∧ 4 = n := by simpa using same
    have own : Escape.hexRun? 4 (cs.take 4) = some value' := by
      unfold Escape.hexRun? at run ⊢
      rwa [List.take_take, Nat.min_self]
    rw [codeUnit?_digits, own, Option.map_some]
    rwa [List.head?_take, if_neg (by decide)]

theorem codePoint?_take (found : Escape.codePoint? cs = some (ch, n)) :
    Escape.codePoint? (cs.take n) = some (ch, (cs.take n).length) := by
  obtain ⟨enough, -⟩ := codePoint?_append [] found
  rw [List.length_take, Nat.min_eq_left enough]
  unfold Escape.codePoint? at found ⊢
  obtain ⟨⟨value, m⟩, unit, same⟩ := Option.map_eq_some_iff.mp found
  obtain ⟨rfl, rfl⟩ : _ = ch ∧ m = n := by simpa using same
  rw [codeUnit?_take unit, Option.map_some]

end
end Scan

/-! ### Parts of names -/

/-- A character of a name as it is written: raw, or as an escape, given by the text after its `\u`. -/
inductive NamePart where
  | raw (ch : Char)
  | escape (ch : Char) (body : List Char)

namespace NamePart

/-- The character that a part stands for. -/
def char : NamePart → Char
  | raw ch => ch
  | escape ch _ => ch

/-- The text of a part. -/
def text : NamePart → List Char
  | raw ch => [ch]
  | escape _ body => '\\' :: 'u' :: body

/-- Whether the character is written as an escape. -/
def isEscape : NamePart → Bool
  | raw _ => false
  | escape _ _ => true

/-- The scanner passes a part inside a name: a raw character has to be one that can continue a name, and an
escape has to be one that can be decoded. -/
def Passable : NamePart → Prop
  | raw ch => Text.isIdContinue ch = true
  | escape ch body => Escape.codePoint? body = some (ch, body.length)

/-- The text of several parts. -/
def textOf (ps : List NamePart) : List Char := ps.flatMap text

/-- The name that several parts stand for. -/
def nameOf (ps : List NamePart) : List Char := ps.map char

/-- A name begins with a raw letter or with any escape. -/
def Begins : List NamePart → Prop
  | [] => False
  | raw ch :: _ => Text.isIdStart ch = true
  | escape _ _ :: _ => True

theorem textOf_cons (p : NamePart) (ps : List NamePart) : textOf (p :: ps) = p.text ++ textOf ps := rfl

theorem textOf_append (ps qs : List NamePart) : textOf (ps ++ qs) = textOf ps ++ textOf qs :=
  List.flatMap_append

theorem textOf_map_raw (cs : List Char) : textOf (cs.map raw) = cs := by
  induction cs with
  | nil => rfl
  | cons c cs ih => exact congrArg (c :: ·) ih

/-- The first character of a name tells that it is one. -/
theorem Begins.first {ps : List NamePart} (begins : Begins ps) :
    ∃ first tail, textOf ps = first :: tail ∧ (Text.isIdStart first || first == '\\') = true := by
  cases ps with
  | nil => cases begins
  | cons p ps =>
    cases p with
    | raw ch => exact ⟨ch, textOf ps, rfl, Bool.or_eq_true_iff.mpr (.inl begins)⟩
    | escape ch body => exact ⟨'\\', 'u' :: (body ++ textOf ps), rfl, rfl⟩

/-- No backslash is passed as a raw character. -/
theorem Passable.ne_backslash {ch : Char} (passable : (raw ch).Passable) : ch ≠ '\\' := by
  rintro rfl
  have accepted : Text.isIdContinue '\\' = true := passable
  exact absurd accepted (by decide)

/-- The decoder reads the parts that the scanner passes. -/
theorem identifier?_textOf {ps : List NamePart} (passable : ∀ p ∈ ps, p.Passable) :
    Escape.identifier? (textOf ps) = some (nameOf ps) := by
  induction ps with
  | nil => rw [textOf, List.flatMap_nil, Escape.identifier?]; rfl
  | cons p ps ih =>
    obtain ⟨first, later⟩ := List.forall_mem_cons.mp passable
    rw [textOf_cons]
    cases p with
    | raw ch =>
      have other := first.ne_backslash
      rw [text, List.singleton_append, Escape.identifier?, if_neg other, ih later]
      · rfl
      · rintro tail rfl
        exact absurd rfl other
    | escape ch body =>
      obtain ⟨-, again⟩ := Scan.codePoint?_append (textOf ps) first
      rw [text, List.cons_append, List.cons_append, Escape.identifier?, again]
      dsimp only
      rw [List.drop_left, ih later]
      rfl

end NamePart

/-! ### What the scanner passes -/

namespace Scan

open NamePart (Begins nameOf textOf textOf_append textOf_cons textOf_map_raw)

section
variable {c d : Cursor} {escaped read : Bool} {kind : TokenKind} {t : Token}

/-- A run of characters of a name, as raw parts. -/
theorem passes_raw (c : Cursor) : ∃ ps, c.Passes (textOf ps) (c.skipWhile Text.isIdContinue) ∧
    (∀ p ∈ ps, p.Passable) ∧ ps.any (·.isEscape) = false := by
  refine ⟨(c.rest.takeWhile Text.isIdContinue).map .raw, ?_, ?_, ?_⟩
  · rw [textOf_map_raw]
    exact Cursor.passes_skipWhile _ _
  · exact List.forall_mem_map.mpr fun ch member => List.mem_takeWhile_imp member
  · simp [NamePart.isEscape]

/-- The scanner passes a name part by part, and notes whether one of them is an escape. -/
theorem name_parts (found : name escaped c = .ok (read, d)) :
    ∃ ps, c.Passes (textOf ps) d ∧ (∀ p ∈ ps, p.Passable) ∧ read = (escaped || ps.any (·.isEscape)) := by
  fun_induction name escaped c with
  | case1 escaped c stop cs here ch n decoded ih =>
    obtain ⟨before, run, raw, -⟩ := passes_raw c
    obtain ⟨after, passes, passable, noted⟩ := ih found
    have own : stop.Passes (NamePart.escape ch (cs.take n)).text (stop.skip (n + 2)) := by
      have skips := Cursor.passes_skip (n + 2) stop
      rwa [here] at skips
    refine ⟨before ++ .escape ch (cs.take n) :: after, ?_, ?_, ?_⟩
    · rw [textOf_append, textOf_cons]
      exact run.trans (own.trans passes)
    · exact List.forall_mem_append.mpr ⟨raw, List.forall_mem_cons.mpr ⟨codePoint?_take decoded, passable⟩⟩
    · simp [noted, NamePart.isEscape]
  | case2 => cases found
  | case3 => cases found
  | case4 => cases found
  | case5 escaped c stop =>
    obtain ⟨rfl, rfl⟩ : escaped = read ∧ stop = d := by simpa using found
    obtain ⟨ps, run, raw, none⟩ := passes_raw c
    exact ⟨ps, run, raw, by rw [none, Bool.or_false]⟩

/-- An identifier is written part by part, of which the first one begins a name. -/
theorem word_parts {ch : Char} {cs : List Char} (here : c.rest = ch :: cs)
    (starts : Text.isIdStart ch = true ∨ ch = '\\') (found : word c = .ok (kind, d)) :
    ∃ ps, c.Passes (textOf ps) d ∧ (∀ p ∈ ps, p.Passable) ∧ Begins ps ∧
      kind = wordKind (ps.any (·.isEscape)) (textOf ps) := by
  unfold word at found
  split at found
  · cases found
  next escaped stop passed =>
    cases found
    obtain ⟨ps, passes, passable, noted⟩ := name_parts passed
    have same := Cursor.upTo_of_passes passes
    refine ⟨ps, passes, passable, ?_, by rw [same, noted, Bool.false_or]⟩
    cases ps with
    | nil =>
      -- Nothing was passed, but a name does not stop before a character that it can begin with.
      have rest : c.rest = d.rest := passes.1
      obtain ⟨refused, plain⟩ := name_stops passed (rest ▸ here)
      rcases starts with letter | backslash
      · cases refused.symm.trans (Text.isIdContinue_of_isIdStart letter)
      · exact plain backslash
    | cons p ps =>
      cases p with
      | raw first =>
        have rest : c.rest = first :: (textOf ps ++ d.rest) := passes.1
        obtain rfl : ch = first := (List.cons_eq_cons.mp (here.symm.trans rest)).1
        exact starts.resolve_right (passable _ List.mem_cons_self).ne_backslash
      | escape first body => trivial

/-- A token that the scanner gives, from some position with some expectation. -/
def Given (t : Token) : Prop := ∃ expecting c d, token expecting c = .ok (t, d)

/-- A token is a lexeme, and its text is what was passed. -/
theorem Given.lexeme (given : Given t) :
    ∃ c d, Lexeme c d t.kind ∧ ∀ text, c.Passes text d → t.text.toList = text := by
  obtain ⟨expecting, c, d, read⟩ := given
  obtain ⟨seen, start, kind, -, found, rfl⟩ := token_eq_ok_iff.mp read
  refine ⟨start, d, lexeme_cases found, fun text passes => ?_⟩
  rw [tokenAt, String.toList_ofList, Cursor.upTo_of_passes passes]

/-- The text of an identifier token is a name part by part, and the decoder reads its parts. -/
theorem Given.name_parts (given : Given t) (kind : t.kind = .identifier) :
    ∃ ps, t.text.toList = textOf ps ∧ (∀ p ∈ ps, p.Passable) ∧ Begins ps ∧
      Escape.identifier? t.text.toList = some (nameOf ps) := by
  obtain ⟨c, d, found, text⟩ := given.lexeme
  rw [kind] at found
  cases found with
  | identifier here starts found =>
    obtain ⟨ps, passes, passable, begins, -⟩ := word_parts here starts found
    have same := text _ passes
    exact ⟨ps, same, passable, begins, by rw [same, NamePart.identifier?_textOf passable]⟩

end
end Scan
end NameAudit
