import NameAudit.Proofs.Spellings

/-!
Tokens with a fixed text. The text stands in the source where the token is. A punctuator is the longest one that
the source begins with there, but for `?.` before a digit, which is read as the `?` of a conditional
(`longest_of_punctuatorAt?`). A reserved word is written without escapes and goes on as far as a name would
(`token_with_fixed_text`).
-/
namespace NameAudit

open Text (byteLength)

/-! ### The longest punctuator -/

namespace Punctuator

variable {p q : Punctuator} {ps : List Punctuator} {best : Option Punctuator} {cs : List Char}

/-- What is chosen of two punctuators is shorter than neither. -/
theorem le_longer (best : Option Punctuator) (p : Punctuator) :
    ∃ r, longer best p = some r ∧ p.text.length ≤ r.text.length ∧
      ∀ q, best = some q → q.text.length ≤ r.text.length := by
  cases best with
  | none => exact ⟨p, rfl, Nat.le_refl _, by rintro _ ⟨⟩⟩
  | some q =>
    by_cases shorter : q.text.length < p.text.length
    · refine ⟨p, if_pos shorter, Nat.le_refl _, ?_⟩
      rintro _ ⟨⟩
      exact shorter.le
    · refine ⟨q, if_neg shorter, Nat.le_of_not_lt shorter, ?_⟩
      rintro _ ⟨⟩
      exact Nat.le_refl _

theorem le_of_foldl_longer (chosen : ps.foldl longer best = some p) :
    ∀ q, best = some q ∨ q ∈ ps → q.text.length ≤ p.text.length := by
  induction ps generalizing best with
  | nil =>
    rintro q (first | impossible)
    · obtain rfl : q = p := Option.some.inj (first.symm.trans chosen)
      exact Nat.le_refl _
    · cases impossible
  | cons next ps ih =>
    obtain ⟨r, same, own, others⟩ := le_longer best next
    have later := ih chosen
    have bound := later r (.inl same)
    rintro q (first | member)
    · exact (others q first).trans bound
    · rcases List.mem_cons.mp member with rfl | member
      · exact own.trans bound
      · exact later q (.inr member)

/-- No punctuator that a text begins with is longer than the longest one. -/
theorem le_of_longest? (chosen : longest? cs = some p) (begins : q.text.toList <+: cs) :
    q.text.length ≤ p.text.length :=
  le_of_foldl_longer chosen q
    (.inr (List.mem_filter.mpr ⟨mem_all q, List.isPrefixOf_iff_prefix.mpr begins⟩))

theorem eq_questionDot (same : q.text.toList = ['?', '.']) : q = .questionDot := by
  revert same
  cases q <;> decide

end Punctuator

namespace Scan

section
variable {expecting : Expecting} {c d : Cursor} {cs : List Char} {p q : Punctuator} {kind : TokenKind} {s : String}

/-- A text that begins with a conditional whose first branch is a number that begins with a point. -/
def IsConditional (cs : List Char) : Prop := ∃ digit tail, cs = '?' :: '.' :: digit :: tail ∧ digit.isDigit = true

theorem longest?_conditional (ch : Char) (cs : List Char) :
    Punctuator.longest? ('?' :: '.' :: ch :: cs) = some .questionDot := rfl

theorem isConditional_of_questionDot (begins : ['?', '.'] <+: cs) (digit : startsWithDigit (cs.drop 2) = true) :
    IsConditional cs := by
  obtain ⟨tail, rfl⟩ := begins
  cases tail with
  | nil => cases digit
  | cons ch tail => exact ⟨ch, tail, rfl, digit⟩

/-- The punctuator that is read is the longest one that the text begins with, except for `?.` before a digit. -/
theorem longest_of_punctuatorAt? (found : punctuatorAt? cs = some p) :
    (IsConditional cs → p = .question) ∧ ∀ q : Punctuator, q.text.toList <+: cs →
      q.text.length ≤ p.text.length ∨ p = .question ∧ q = .questionDot ∧ IsConditional cs := by
  constructor
  · rintro ⟨digit, tail, rfl, isDigit⟩
    have digitAhead : startsWithDigit (('?' :: '.' :: digit :: tail).drop 2) = true := isDigit
    rw [punctuatorAt?, longest?_conditional] at found
    dsimp only at found
    rw [if_pos digitAhead] at found
    exact (Option.some.inj found).symm
  · intro q begins
    unfold punctuatorAt? at found
    split at found
    next chosen =>
      have bound := Punctuator.le_of_longest? chosen begins
      have point := Punctuator.prefix_of_longest? chosen
      split at found
      next digit =>
        obtain rfl := Option.some.inj found
        by_cases short : q.text.length ≤ 1
        · exact .inl short
        · -- The only longer one begins as `?.` does and is not longer than that.
          have inside := List.prefix_of_prefix_length_le begins point bound
          have whole := inside.eq_of_length (Nat.le_antisymm bound (Nat.lt_of_not_le short))
          exact .inr ⟨rfl, Punctuator.eq_questionDot whole, isConditional_of_questionDot point digit⟩
      · obtain rfl := Option.some.inj found
        exact .inl bound
    · exact .inl (Punctuator.le_of_longest? found begins)

/-! ### Reserved words -/

theorem wordKind_eq_word {escaped : Bool} {text : List Char} {k : Keyword}
    (reserved : wordKind escaped text = .word k) : text = k.text.toList := by
  unfold wordKind at reserved
  split at reserved
  next found =>
    split at reserved
    · cases reserved
    · cases reserved
      have same := List.find?_some (p := fun w : Keyword => w.text == String.ofList text) found
      rw [beq_iff_eq.mp same, String.toList_ofList]
  · cases reserved

/-- The text of a reserved word holds no backslash. -/
theorem keyword_unescaped (k : Keyword) : '\\' ∉ k.text.toList := by
  obtain ⟨first, tail, same, -, inside, -⟩ := keyword_text k
  rw [same]
  intro member
  exact absurd (inside _ member) (by decide)

/-- A reserved word goes on as far as a name would. -/
theorem word_stops {k : Keyword} (found : word c = .ok (.word k, d)) :
    c.Passes k.text.toList d ∧ EndsName d.rest := by
  unfold word at found
  cases named : name false c with
  | error e =>
    simp only [named] at found
    cases found
  | ok read =>
    obtain ⟨escaped, stop⟩ := read
    simp only [named, Except.ok.injEq, Prod.mk.injEq] at found
    obtain ⟨reserved, rfl⟩ := found
    obtain ⟨text, passes⟩ := name_reaches named
    rw [Cursor.upTo_of_passes passes] at reserved
    exact ⟨wordKind_eq_word reserved ▸ passes, fun ch tail here => name_stops named here⟩

/-! ### Tokens -/

/-- A fixed text is what was passed. -/
theorem Lexeme.passes (found : Lexeme c d kind) (fixed : kind.text? = some s) : c.Passes s.toList d := by
  cases found with
  | word found =>
    obtain rfl := Option.some.inj fixed
    exact (word_stops found).1
  | @punct p found stop =>
    obtain rfl := Option.some.inj fixed
    obtain ⟨after, rest⟩ := prefix_of_punctuatorAt? found
    rw [stop]
    exact Cursor.passes_skip_of_rest p.text.toList rest.symm
  | _ => cases fixed

/-- A token with a fixed text stands in the source as that text. A punctuator is the longest one there, except for
`?.` before a digit, and a reserved word is written without escapes and ends where a name would. -/
theorem token_with_fixed_text {source : List Char} {t : Token} (reached : (Cursor.ofSource source).Reaches c)
    (read : token expecting c = .ok (t, d)) (fixed : t.kind.text? = some s) :
    ∃ before after, source = before ++ (s.toList ++ after) ∧
      t.span = ⟨byteLength before, byteLength before + byteLength s.toList⟩ ∧ t.text = s ∧
      (∀ p, t.kind = .punct p → (IsConditional (s.toList ++ after) → p = .question) ∧
        ∀ q : Punctuator, q.text.toList <+: s.toList ++ after → q.text.length ≤ p.text.length ∨
          p = .question ∧ q = .questionDot ∧ IsConditional (s.toList ++ after)) ∧
      ∀ k, t.kind = .word k → '\\' ∉ s.toList ∧ EndsName after := by
  obtain ⟨seen, start, kind, gap, found, rfl⟩ := token_eq_ok_iff.mp read
  obtain ⟨before, passed⟩ := reached.trans (trivia_reaches gap)
  have own := (lexeme_cases found).passes fixed
  have offset : start.offset = byteLength before := by simpa [Cursor.ofSource] using passed.2
  refine ⟨before, d.rest, passed.1.trans (congrArg (before ++ ·) own.1), ?_, ?_, ?_, ?_⟩
  · show (⟨start.offset, d.offset⟩ : Span) = _
    rw [own.2, offset]
  · rw [tokenAt, Cursor.upTo_of_passes own, String.ofList_toList]
  · rintro p rfl
    cases lexeme_cases found with
    | punct chosen stop =>
      rw [← own.1]
      exact longest_of_punctuatorAt? chosen
  · rintro k rfl
    obtain rfl := Option.some.inj fixed
    cases lexeme_cases found with
    | word found => exact ⟨keyword_unescaped k, (word_stops found).2⟩

/-- The question mark of a conditional before a number. -/
theorem token_with_fixed_text_conditional :
    let source := "?.5:b".toList
    let t : Token := ⟨.punct .question, ⟨0, 1⟩, "?", false, none⟩
    token .operator (Cursor.ofSource source) = .ok (t, ⟨1, ".5:b".toList⟩) ∧
    ∃ before after, source = before ++ ("?".toList ++ after) ∧
      t.span = ⟨byteLength before, byteLength before + byteLength "?".toList⟩ ∧ t.text = "?" ∧
      (∀ p, t.kind = .punct p → (IsConditional ("?".toList ++ after) → p = .question) ∧
        ∀ q : Punctuator, q.text.toList <+: "?".toList ++ after → q.text.length ≤ p.text.length ∨
          p = .question ∧ q = .questionDot ∧ IsConditional ("?".toList ++ after)) ∧
      ∀ k, t.kind = .word k → '\\' ∉ "?".toList ∧ EndsName after := by
  intro source t
  have read : token .operator (Cursor.ofSource source) = .ok (t, ⟨1, ".5:b".toList⟩) := by
    simp only [source, t]
    cbv
  exact ⟨read, token_with_fixed_text (.refl _) read rfl⟩

end
end Scan
end NameAudit
