import NameAudit.Proofs.Spellings
import NameAudit.Proofs.StatementRules
import NameAudit.Proofs.StringLiterals

/-!
Names that are written with escapes. Each way to write a name with at least one escape is one identifier, even
where the name itself is a reserved word, and the decoder gives the name back (`identifier_decodes`). What an
identifier stands for is a name only if its escapes are as careful as its raw characters: the scanner asks
whether an escape can be decoded, but not for which character (`identifier_isName_iff`).
-/
namespace NameAudit

namespace Text

/-- A name: a letter, and then characters that can continue a name. -/
def IsName : List Char → Prop
  | [] => False
  | first :: later => isIdStart first = true ∧ ∀ ch ∈ later, isIdContinue ch = true

theorem IsName.inside {cs : List Char} (isName : IsName cs) : ∀ ch ∈ cs, isIdContinue ch = true := by
  cases cs with
  | nil => exact List.forall_mem_nil _
  | cons first later => exact List.forall_mem_cons.mpr ⟨isIdContinue_of_isIdStart isName.1, isName.2⟩

end Text

open NamePart (Begins nameOf textOf)
open StringText (Spells)
open Text (IsName byteLength)

/-! ### Ways to write a name -/

namespace NamePart

/-- A way to write a character: raw, or as an escape of four digits or in braces. -/
inductive Written : NamePart → Prop
  | raw (ch : Char) : Written (raw ch)
  | unit {ch : Char} {digits : List Char} (four : digits.length = 4) (spelled : Spells digits ch.toNat) :
    Written (escape ch digits)
  | braces {ch : Char} {digits : List Char} (spelled : Spells digits ch.toNat) :
    Written (escape ch ('\x7b' :: (digits ++ ['\x7d'])))

section
variable {p : NamePart} {ps : List NamePart}

/-- The number of a character stands for it. -/
theorem codePoint?_of_unit {ch : Char} {cs : List Char} {n : Nat}
    (unit : Escape.codeUnit? cs = some (ch.toNat, n)) : Escape.codePoint? cs = some (ch, n) := by
  rw [Escape.codePoint?, unit, Option.map_some]
  dsimp only
  rw [StringText.charOf?_toNat, Option.getD_some]

/-- The scanner passes a character of a name however it is written. -/
theorem Written.passable (written : p.Written) (inside : Text.isIdContinue p.char = true) : p.Passable := by
  cases written with
  | raw ch => exact inside
  | @unit ch digits four spelled =>
    have unit := spelled.codeUnit? four []
    rw [List.append_nil, ← four] at unit
    exact codePoint?_of_unit unit
  | @braces ch digits spelled =>
    have small : ch.toNat ≤ 0x10ffff := by
      have := StringText.valid ch
      omega
    have length : ('\x7b' :: (digits ++ ['\x7d'])).length = digits.length + 2 := by simp
    rw [Passable, length]
    exact codePoint?_of_unit (spelled.codeUnit?_braces small [])

theorem passable_of_written (isName : IsName (nameOf ps)) (written : ∀ p ∈ ps, p.Written) :
    ∀ p ∈ ps, p.Passable :=
  fun p member => (written p member).passable (isName.inside p.char (List.mem_map_of_mem member))

theorem begins_of_isName (isName : IsName (nameOf ps)) : Begins ps := by
  cases ps with
  | nil => exact isName
  | cons p ps =>
    cases p with
    | raw ch => exact isName.1
    | escape ch body => trivial

end
end NamePart

namespace Scan

/-- A text that is one token gives that token and the end of the text. -/
theorem tokens_of_lexeme {expecting : Expecting} {kind : TokenKind} {cs : List Char} (begins : BeginsToken cs)
    (found : lexeme expecting ⟨0, cs⟩ = .ok (kind, ⟨byteLength cs, []⟩)) (more : kind ≠ .eof) :
    tokens expecting cs =
      ⟨[⟨kind, ⟨0, byteLength cs⟩, String.ofList cs, false, none⟩,
        ⟨.eof, ⟨byteLength cs, byteLength cs⟩, "", false, none⟩], none, byteLength cs⟩ := by
  have passes : Cursor.Passes ⟨0, cs⟩ cs ⟨byteLength cs, []⟩ :=
    ⟨(List.append_nil _).symm, (Nat.zero_add _).symm⟩
  have first : token expecting ⟨0, cs⟩ =
      .ok (⟨kind, ⟨0, byteLength cs⟩, String.ofList cs, false, none⟩, ⟨byteLength cs, []⟩) := by
    refine token_eq_ok_iff.mpr ⟨{}, _, _, trivia_begins begins {}, found, ?_⟩
    rw [tokenAt, Cursor.upTo_of_passes passes]
    rfl
  have ended : token expecting ⟨byteLength cs, []⟩ =
      .ok (⟨.eof, ⟨byteLength cs, byteLength cs⟩, "", false, none⟩, ⟨byteLength cs, []⟩) := by
    exact token_eq_ok_iff.mpr ⟨{}, _, _, trivia_begins beginsToken_nil {}, lexeme_of_nil rfl, rfl⟩
  -- A text without characters has no token but the end.
  obtain ⟨n, length⟩ : ∃ n, cs.length = n + 1 := by
    refine Nat.exists_eq_add_one.mpr (List.length_pos_iff.mpr ?_)
    rintro rfl
    rw [lexeme_of_nil rfl] at found
    exact more (congrArg Prod.fst (Except.ok.inj found)).symm
  rw [tokens, length, tokensWithin, Cursor.ofSource, first]
  dsimp only
  rw [if_neg more, tokensWithin, ended]
  dsimp only
  rw [if_pos rfl]

/-- A word with an escape is never reserved. -/
theorem wordKind_escaped (text : List Char) : wordKind true text = .identifier := by
  unfold wordKind
  split <;> rfl

end Scan

/-- Every identifier token can be decoded, so that the parser never refuses an escape in one, and every way to
write a name with an escape is one identifier token of which the decoder gives the name. -/
theorem identifier_decodes :
    (∀ t, Scan.Given t → t.kind = .identifier → ∃ name, Escape.identifier? t.text.toList = some name) ∧
    (∀ source span, parse source ≠ .error (.malformed ⟨.invalidEscape, span, some .identifier⟩)) ∧
    ∀ expecting ps, IsName (nameOf ps) → (∀ p ∈ ps, p.Written) → ps.any (·.isEscape) = true →
      let text := textOf ps
      let stop := byteLength text
      Scan.tokens expecting text =
          ⟨[⟨.identifier, ⟨0, stop⟩, String.ofList text, false, none⟩,
            ⟨.eof, ⟨stop, stop⟩, "", false, none⟩], none, stop⟩ ∧
        Escape.identifier? text = some (nameOf ps) := by
  refine ⟨?_, ?_, ?_⟩
  · intro t given kind
    obtain ⟨ps, -, -, -, decoded⟩ := given.name_parts kind
    exact ⟨_, decoded⟩
  · intro source span refused
    rcases parse_arises refused rfl with none | string
    · cases none
    · cases string
  · intro expecting ps isName written escaped text stop
    have passable := NamePart.passable_of_written isName written
    have begins := NamePart.begins_of_isName isName
    have found : Scan.lexeme expecting ⟨0, text ++ []⟩ = _ := Scan.lexeme_textOf passable begins Scan.endsName_nil
    rw [List.append_nil, Nat.zero_add, escaped, Scan.wordKind_escaped] at found
    have starts : Scan.BeginsToken (text ++ []) := Scan.beginsToken_textOf begins
    rw [List.append_nil] at starts
    exact ⟨Scan.tokens_of_lexeme starts found (by decide), NamePart.identifier?_textOf passable⟩

/-- A reserved word with an escape in braces and one of four digits. -/
theorem identifier_decodes_reserved :
    let text := "\\u\x7b63\x7dl\\u0061ss".toList
    let t : Token := ⟨.identifier, ⟨0, 15⟩, String.ofList text, false, none⟩
    Scan.tokens .operand text = ⟨[t, ⟨.eof, ⟨15, 15⟩, "", false, none⟩], none, 15⟩ ∧
      Escape.identifier? text = some "class".toList ∧ Keyword.ofText? "class" = some .classWord ∧
      Scan.Given t ∧ ∃ name, Escape.identifier? t.text.toList = some name := by
  intro text t
  have c : Spells ['6', '3'] 'c'.toNat :=
    ⟨List.cons_ne_nil _ _, [6, 3], by simp [StringText.IsDigit, Nat.digitChar], by decide⟩
  have a : Spells ['0', '0', '6', '1'] 'a'.toNat :=
    ⟨List.cons_ne_nil _ _, [0, 0, 6, 1], by simp [StringText.IsDigit, Nat.digitChar], by decide⟩
  let ps : List NamePart := [.escape 'c' "\x7b63\x7d".toList, .raw 'l', .escape 'a' "0061".toList, .raw 's', .raw 's']
  have written : ∀ p ∈ ps, p.Written := by
    simp only [ps, List.forall_mem_cons, List.not_mem_nil, false_implies, implies_true, and_true]
    exact ⟨.braces c, .raw _, .unit rfl a, .raw _, .raw _⟩
  have isName : IsName (nameOf ps) := ⟨by decide, List.all_eq_true.mp (by decide)⟩
  have same : textOf ps = text := by decide
  obtain ⟨alone, decoded⟩ := identifier_decodes.2.2 .operand ps isName written (by decide)
  rw [same] at alone decoded
  have given : Scan.Given t := by
    refine ⟨.operand, ⟨0, text⟩, ⟨15, []⟩, ?_⟩
    simp only [t, text]
    cbv
  exact ⟨alone, decoded, by decide, given, identifier_decodes.1 t given rfl⟩

/-! ### What identifiers stand for -/

namespace NamePart

/-- Each escape stands for a character that could stand raw in its place. -/
def EscapesFit : List NamePart → Prop
  | [] => True
  | p :: ps => (p.isEscape = true → Text.isIdStart p.char = true) ∧
    ∀ q ∈ ps, q.isEscape = true → Text.isIdContinue q.char = true

theorem isName_nameOf_iff {ps : List NamePart} (passable : ∀ p ∈ ps, p.Passable) (begins : Begins ps) :
    IsName (nameOf ps) ↔ EscapesFit ps := by
  cases ps with
  | nil => cases begins
  | cons p ps =>
    refine and_congr ?_ ?_
    · cases p with
      | raw ch => exact iff_of_true begins (by rintro ⟨⟩)
      | escape ch body => exact ⟨fun starts _ => starts, fun fits => fits rfl⟩
    · refine List.forall_mem_map.trans (forall₂_congr fun q member => ?_)
      cases q with
      | raw ch => exact iff_of_true (passable _ (List.mem_cons_of_mem _ member)) (by rintro ⟨⟩)
      | escape ch body => exact ⟨fun inside _ => inside, fun fits => fits rfl⟩

end NamePart

/-- What an identifier token stands for is never empty, and it is a name exactly if each of its escapes stands
for a character that could stand raw in its place. -/
theorem identifier_isName_iff {t : Token} (given : Scan.Given t) (kind : t.kind = .identifier) :
    ∃ ps, t.text.toList = textOf ps ∧ (∀ p ∈ ps, p.Passable) ∧
      Escape.identifier? t.text.toList = some (nameOf ps) ∧ nameOf ps ≠ [] ∧
      (IsName (nameOf ps) ↔ NamePart.EscapesFit ps) := by
  obtain ⟨ps, text, passable, begins, decoded⟩ := given.name_parts kind
  refine ⟨ps, text, passable, decoded, ?_, NamePart.isName_nameOf_iff passable begins⟩
  rintro empty
  rw [List.map_eq_nil_iff.mp empty] at begins
  exact begins

/-- An identifier with an escape that fits. -/
theorem identifier_isName_iff_letter :
    let t : Token := ⟨.identifier, ⟨0, 8⟩, "a\\u\x7b62\x7dc", false, none⟩
    Scan.Given t ∧ ∃ ps, t.text.toList = textOf ps ∧ (∀ p ∈ ps, p.Passable) ∧
      Escape.identifier? t.text.toList = some (nameOf ps) ∧ nameOf ps ≠ [] ∧
      (IsName (nameOf ps) ↔ NamePart.EscapesFit ps) := by
  intro t
  have given : Scan.Given t := ⟨.operand, ⟨0, t.text.toList⟩, ⟨8, []⟩, by cbv⟩
  exact ⟨given, identifier_isName_iff given rfl⟩

/-- An escape puts a point into a name. -/
theorem identifier_with_point :
    let t : Token := ⟨.identifier, ⟨0, 8⟩, "a\\u\x7b2e\x7db", false, none⟩
    Scan.tokens .operand "a\\u\x7b2e\x7db".toList = ⟨[t, ⟨.eof, ⟨8, 8⟩, "", false, none⟩], none, 8⟩ ∧
      Escape.identifier? t.text.toList = some "a.b".toList ∧ ¬ IsName "a.b".toList := by
  refine ⟨by cbv, by cbv, ?_⟩
  rintro ⟨-, inside⟩
  exact absurd (inside '.' (by decide)) (by decide)

end NameAudit
